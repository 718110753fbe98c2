import EdgeInclude.Text.Utf8

/-!
# Reading text back

`Utf8.encode` spells a text as bytes, and `Utf8.decode?` reads bytes as text. The one is the inverse of
the other: bytes are read as a text exactly if the text is spelled by them.

* **`Lead.Reads`**: what the first byte of a character says, by its number.
* **`piecesAfter_encodeChar_append`**: the bytes of a character are read as the character.
* **`exists_of_piecesAfter_eq_cons`**: nothing else is.
* **`decode?_eq_some_iff`**.
-/

namespace EdgeInclude.Utf8

variable {b : UInt8} {bytes rest : Bytes} {c : Char} {ps : List (Option Char)} {u : Unfinished}
variable {v n : Nat}

/-- What a byte with a number says when no character is unfinished. -/
inductive Lead.Reads (n : Nat) : Lead → Prop
  | single (hn : n < 0x80) : Reads n (.single (Char.ofNat n))
  | two (hn : 0xC2 ≤ n) (hn' : n ≤ 0xDF) : Reads n (.opening ⟨0, 0x80, 0xBF, n - 0xC0⟩)
  | three {low high : UInt8} (hn : 0xE0 ≤ n) (hn' : n ≤ 0xEF)
      (hlow : n = 0xE0 ∧ low.toNat = 0xA0 ∨ n ≠ 0xE0 ∧ low.toNat = 0x80)
      (hhigh : n = 0xED ∧ high.toNat = 0x9F ∨ n ≠ 0xED ∧ high.toNat = 0xBF) :
      Reads n (.opening ⟨1, low, high, n - 0xE0⟩)
  | four {low high : UInt8} (hn : 0xF0 ≤ n) (hn' : n ≤ 0xF4)
      (hlow : n = 0xF0 ∧ low.toNat = 0x90 ∨ n ≠ 0xF0 ∧ low.toNat = 0x80)
      (hhigh : n = 0xF4 ∧ high.toNat = 0x8F ∨ n ≠ 0xF4 ∧ high.toNat = 0xBF) :
      Reads n (.opening ⟨2, low, high, n - 0xF0⟩)
  | illFormed (hn : 0x80 ≤ n ∧ n < 0xC2 ∨ 0xF4 < n) : Reads n .illFormed

/-- What a first byte announces. -/
theorem Lead.reads_ofByte (b : UInt8) : Lead.Reads b.toNat (Lead.ofByte b) := by
  simp only [Lead.ofByte, UInt8.lt_iff_toNat_lt, UInt8.le_iff_toNat_le, ← UInt8.toNat_inj,
    UInt8.reduceToNat]
  generalize b.toNat = n
  split
  · rename_i h
    exact .single h
  split
  · exact .illFormed (.inl (by omega))
  split
  · exact .two (by omega) (by omega)
  split
  · rename_i h
    subst h
    exact .three (by omega) (by omega) (.inl ⟨rfl, rfl⟩) (.inr ⟨by omega, rfl⟩)
  split
  · rename_i h
    subst h
    exact .three (by omega) (by omega) (.inr ⟨by omega, rfl⟩) (.inl ⟨rfl, rfl⟩)
  split
  · exact .three (by omega) (by omega) (.inr ⟨by omega, rfl⟩) (.inr ⟨by omega, rfl⟩)
  split
  · rename_i h
    subst h
    exact .four (by omega) (by omega) (.inl ⟨rfl, rfl⟩) (.inr ⟨by omega, rfl⟩)
  split
  · exact .four (by omega) (by omega) (.inr ⟨by omega, rfl⟩) (.inr ⟨by omega, rfl⟩)
  split
  · rename_i h
    subst h
    exact .four (by omega) (by omega) (.inr ⟨by omega, rfl⟩) (.inl ⟨rfl, rfl⟩)
  · exact .illFormed (.inr (by omega))

/-! ## Bytes that continue a character

The state of the decoder holds what was read of a character. One more byte completes it, continues
it, or does not belong to it. -/

/-- The last byte of a character. -/
theorem piecesAfter_last {x : Nat} (hlater : u.later = 0) (hb : b.toNat = x + 0x80)
    (hlow : u.low.toNat ≤ x + 0x80) (hhigh : x + 0x80 ≤ u.high.toNat) :
    piecesAfter (some u) (b :: rest) =
      some (Char.ofNat (u.bits * 64 + x)) :: piecesAfter none rest := by
  have hrange : u.low ≤ b ∧ b ≤ u.high :=
    ⟨UInt8.le_iff_toNat_le.mpr (hb ▸ hlow), UInt8.le_iff_toNat_le.mpr (hb ▸ hhigh)⟩
  rw [piecesAfter, if_pos hrange, hlater, hb, Nat.add_sub_cancel]

/-- A byte in range continues a character. -/
theorem piecesAfter_continue {later x : Nat} (hlater : u.later = later + 1)
    (hb : b.toNat = x + 0x80) (hlow : u.low.toNat ≤ x + 0x80) (hhigh : x + 0x80 ≤ u.high.toNat) :
    piecesAfter (some u) (b :: rest) =
      piecesAfter (some ⟨later, 0x80, 0xBF, u.bits * 64 + x⟩) rest := by
  have hrange : u.low ≤ b ∧ b ≤ u.high :=
    ⟨UInt8.le_iff_toNat_le.mpr (hb ▸ hlow), UInt8.le_iff_toNat_le.mpr (hb ▸ hhigh)⟩
  rw [piecesAfter, if_pos hrange, hlater, hb, Nat.add_sub_cancel]

/-- A character that is unfinished is only read if the next byte continues it. -/
theorem exists_of_piecesAfter_some (hlow : 0x80 ≤ u.low.toNat)
    (h : piecesAfter (some u) bytes = some c :: ps) :
    ∃ b x rest, bytes = b :: rest ∧ b.toNat = x + 0x80 ∧ u.low.toNat ≤ x + 0x80 ∧
      x + 0x80 ≤ u.high.toNat := by
  cases bytes with
  | nil => cases h
  | cons b rest =>
    rw [piecesAfter] at h
    split at h
    · rename_i hrange
      have hge := UInt8.le_iff_toNat_le.mp hrange.1
      have hle := UInt8.le_iff_toNat_le.mp hrange.2
      exact ⟨b, b.toNat - 0x80, rest, rfl, by omega, by omega, by omega⟩
    · split at h <;> cases h

/-- A character that is completed had its last byte in range. -/
theorem exists_of_piecesAfter_last (hlater : u.later = 0) (hlow : 0x80 ≤ u.low.toNat)
    (h : piecesAfter (some u) bytes = some c :: ps) :
    ∃ b x rest, bytes = b :: rest ∧ b.toNat = x + 0x80 ∧ x + 0x80 ≤ u.high.toNat ∧
      c = Char.ofNat (u.bits * 64 + x) ∧ piecesAfter none rest = ps := by
  obtain ⟨b, x, rest, rfl, hb, hge, hle⟩ := exists_of_piecesAfter_some hlow h
  rw [piecesAfter_last hlater hb hge hle] at h
  obtain ⟨hc, hps⟩ := List.cons.inj h
  exact ⟨b, x, rest, rfl, hb, hle, (Option.some.inj hc).symm, hps⟩

/-- One that is continued had its next byte in range. -/
theorem exists_of_piecesAfter_continue {later : Nat} (hlater : u.later = later + 1)
    (hlow : 0x80 ≤ u.low.toNat) (h : piecesAfter (some u) bytes = some c :: ps) :
    ∃ b x rest, bytes = b :: rest ∧ b.toNat = x + 0x80 ∧ u.low.toNat ≤ x + 0x80 ∧
      x + 0x80 ≤ u.high.toNat ∧
      piecesAfter (some ⟨later, 0x80, 0xBF, u.bits * 64 + x⟩) rest = some c :: ps := by
  obtain ⟨b, x, rest, rfl, hb, hge, hle⟩ := exists_of_piecesAfter_some hlow h
  rw [piecesAfter_continue hlater hb hge hle] at h
  exact ⟨b, x, rest, rfl, hb, hge, hle, h⟩

/-- What was begun gives a character or a fault. -/
theorem piecesAfter_some_ne_nil (u : Unfinished) (bytes : Bytes) :
    piecesAfter (some u) bytes ≠ [] := by
  induction bytes generalizing u with
  | nil => exact List.cons_ne_nil _ _
  | cons b rest ih =>
    rw [piecesAfter]
    split
    · split
      · exact List.cons_ne_nil _ _
      · exact ih _
    · split <;> exact List.cons_ne_nil _ _

/-! ## Characters

The four lengths of a character, each with the bits that its bytes hold. -/

/-- How a character is spelled, by its number. -/
theorem encodeChar_cases (c : Char) :
    (c.toNat < 0x80 ∧ String.utf8EncodeChar c = [UInt8.ofNat c.toNat]) ∨
    (0x80 ≤ c.toNat ∧ c.toNat < 0x800 ∧ String.utf8EncodeChar c =
      [UInt8.ofNat (c.toNat / 64 + 0xC0), UInt8.ofNat (c.toNat % 64 + 0x80)]) ∨
    (0x800 ≤ c.toNat ∧ c.toNat < 0x10000 ∧ String.utf8EncodeChar c =
      [UInt8.ofNat (c.toNat / 4096 + 0xE0), UInt8.ofNat (c.toNat / 64 % 64 + 0x80),
        UInt8.ofNat (c.toNat % 64 + 0x80)]) ∨
    (0x10000 ≤ c.toNat ∧ c.toNat < 0x110000 ∧ String.utf8EncodeChar c =
      [UInt8.ofNat (c.toNat / 262144 + 0xF0), UInt8.ofNat (c.toNat / 4096 % 64 + 0x80),
        UInt8.ofNat (c.toNat / 64 % 64 + 0x80), UInt8.ofNat (c.toNat % 64 + 0x80)]) := by
  have hvalid : c.toNat < 0xD800 ∨ 0xDFFF < c.toNat ∧ c.toNat < 0x110000 := c.valid
  have hval : c.val.toNat = c.toNat := rfl
  fun_cases String.utf8EncodeChar c with
  | case1 v h => exact .inl ⟨by omega, rfl⟩
  | case2 v h h' =>
    refine .inr (.inl ⟨by omega, by omega, ?_⟩)
    rw [Nat.mod_eq_of_lt (show v / 64 < 0x20 by omega)]
    rfl
  | case3 v h h' h'' =>
    refine .inr (.inr (.inl ⟨by omega, by omega, ?_⟩))
    rw [Nat.mod_eq_of_lt (show v / 4096 < 0x10 by omega)]
    rfl
  | case4 v h h' h'' =>
    refine .inr (.inr (.inr ⟨by omega, by omega, ?_⟩))
    rw [Nat.mod_eq_of_lt (show v / 262144 < 0x08 by omega)]
    rfl

/-- A property of all bytes, checked number by number. -/
theorem forall_byte {P : UInt8 → Prop} (h : ∀ n < 256, P (UInt8.ofNat n)) (b : UInt8) : P b := by
  have hb := h b.toNat (UInt8.toNat_lt b)
  rwa [UInt8.ofNat_toNat] at hb

theorem toNat_ofNat_of_lt (hn : n < 256) : (UInt8.ofNat n).toNat = n := by
  rw [UInt8.toNat_ofNat', Nat.mod_eq_of_lt hn]

theorem toNat_ofNat_of_isValidChar (hv : v.isValidChar) : (Char.ofNat v).toNat = v := by
  rw [Char.ofNat, dif_pos hv]
  rfl

/-- What a first byte announces, by the number that it was made from. -/
theorem Lead.reads_ofNat (hn : n < 256) : Lead.Reads n (Lead.ofByte (UInt8.ofNat n)) := by
  have hreads := Lead.reads_ofByte (UInt8.ofNat n)
  rwa [toNat_ofNat_of_lt hn] at hreads

/-- **The bytes of a character are read as the character.** -/
theorem piecesAfter_encodeChar_append (c : Char) (rest : Bytes) :
    piecesAfter none (String.utf8EncodeChar c ++ rest) = some c :: piecesAfter none rest := by
  have hvalid : c.toNat < 0xD800 ∨ 0xDFFF < c.toNat ∧ c.toNat < 0x110000 := c.valid
  have htail (x : Nat) : (UInt8.ofNat (x % 64 + 0x80)).toNat = x % 64 + 0x80 :=
    toNat_ofNat_of_lt (by omega)
  have hread (v : Nat) (hv : v = c.toNat) : some (Char.ofNat v) = some c := by
    rw [hv, Char.ofNat_toNat]
  -- the number of the first byte says how many follow
  rcases encodeChar_cases c with ⟨hv, henc⟩ | ⟨hv, hv', henc⟩ | ⟨hv, hv', henc⟩ | ⟨hv, hv', henc⟩
  · have hlead := Lead.reads_ofNat (n := c.toNat) (by omega)
    rw [henc, List.cons_append, piecesAfter]
    generalize Lead.ofByte _ = lead at hlead ⊢
    cases hlead with
    | single =>
      rw [Char.ofNat_toNat]
      rfl
    | _ => omega
  · have hlead := Lead.reads_ofNat (n := c.toNat / 64 + 0xC0) (by omega)
    rw [henc, List.cons_append, piecesAfter]
    generalize Lead.ofByte _ = lead at hlead ⊢
    cases hlead with
    | two =>
      show piecesAfter (some _) (_ :: rest) = _
      rw [piecesAfter_last rfl (htail _) (Nat.le_add_left _ _)
        (show c.toNat % 64 + 0x80 ≤ 0xBF by omega)]
      simp only
      rw [hread _ (by omega)]
    | _ => omega
  · have hlead := Lead.reads_ofNat (n := c.toNat / 4096 + 0xE0) (by omega)
    rw [henc, List.cons_append, piecesAfter]
    generalize Lead.ofByte _ = lead at hlead ⊢
    cases hlead with
    | three hn hn' hlow hhigh =>
      show piecesAfter (some _) (_ :: _ :: rest) = _
      rw [piecesAfter_continue rfl (htail _) (by simp only; omega) (by simp only; omega),
        piecesAfter_last rfl (htail _) (Nat.le_add_left _ _)
          (show c.toNat % 64 + 0x80 ≤ 0xBF by omega)]
      simp only
      rw [hread _ (by omega)]
    | _ => omega
  · have hlead := Lead.reads_ofNat (n := c.toNat / 262144 + 0xF0) (by omega)
    rw [henc, List.cons_append, piecesAfter]
    generalize Lead.ofByte _ = lead at hlead ⊢
    cases hlead with
    | four hn hn' hlow hhigh =>
      show piecesAfter (some _) (_ :: _ :: _ :: rest) = _
      rw [piecesAfter_continue rfl (htail _) (by simp only; omega) (by simp only; omega),
        piecesAfter_continue rfl (htail _) (Nat.le_add_left _ _)
          (show c.toNat / 64 % 64 + 0x80 ≤ 0xBF by omega),
        piecesAfter_last rfl (htail _) (Nat.le_add_left _ _)
          (show c.toNat % 64 + 0x80 ≤ 0xBF by omega)]
      simp only
      rw [hread _ (by omega)]
    | _ => omega

theorem ofNat_eq_of_toNat (hb : n = b.toNat) : UInt8.ofNat n = b := by
  rw [hb, UInt8.ofNat_toNat]

/-- **Nothing else is read as the character.** -/
theorem exists_of_piecesAfter_eq_cons (h : piecesAfter none bytes = some c :: ps) :
    ∃ rest, bytes = String.utf8EncodeChar c ++ rest ∧ piecesAfter none rest = ps := by
  cases bytes with
  | nil => cases h
  | cons b bytes =>
    have hlead := Lead.reads_ofByte b
    rw [piecesAfter] at h
    generalize Lead.ofByte b = lead at hlead h
    cases hlead with
    | single hn =>
      obtain ⟨hc, rfl⟩ := List.cons.inj h
      have hv : c.toNat = b.toNat := by
        rw [← Option.some.inj hc, toNat_ofNat_of_isValidChar (.inl (by omega))]
      refine ⟨bytes, ?_, rfl⟩
      rcases encodeChar_cases c with ⟨-, henc⟩ | ⟨hge, -⟩ | ⟨hge, -⟩ | ⟨hge, -⟩
      case inl =>
        rw [henc, ofNat_eq_of_toNat hv]
        rfl
      all_goals omega
    | two hn hn' =>
      obtain ⟨b₁, x₁, rest, rfl, hb₁, hle₁, hc, hps⟩ := exists_of_piecesAfter_last rfl (Nat.le_refl _) h
      change x₁ + 0x80 ≤ 0xBF at hle₁
      have hv : c.toNat = (b.toNat - 0xC0) * 64 + x₁ := by
        rw [hc, toNat_ofNat_of_isValidChar (.inl (by simp only; omega))]
      refine ⟨rest, ?_, hps⟩
      rcases encodeChar_cases c with ⟨hlt, -⟩ | ⟨-, -, henc⟩ | ⟨hge, -⟩ | ⟨hge, -⟩
      case inr.inl =>
        rw [henc, ofNat_eq_of_toNat (b := b) (by omega), ofNat_eq_of_toNat (b := b₁) (by omega)]
        rfl
      all_goals omega
    | three hn hn' hlow hhigh =>
      obtain ⟨b₁, x₁, rest, rfl, hb₁, hge₁, hle₁, h⟩ :=
        exists_of_piecesAfter_continue rfl (by simp only; omega) h
      obtain ⟨b₂, x₂, rest, rfl, hb₂, hle₂, hc, hps⟩ :=
        exists_of_piecesAfter_last rfl (Nat.le_refl _) h
      simp only at hge₁ hle₁ hc
      change x₂ + 0x80 ≤ 0xBF at hle₂
      -- the narrowed range of the second byte keeps out surrogates and overlong forms
      have hv : c.toNat = ((b.toNat - 0xE0) * 64 + x₁) * 64 + x₂ := by
        rw [hc, toNat_ofNat_of_isValidChar (by unfold Nat.isValidChar; omega)]
      refine ⟨rest, ?_, hps⟩
      rcases encodeChar_cases c with ⟨hlt, -⟩ | ⟨-, hlt, -⟩ | ⟨-, -, henc⟩ | ⟨hge, -⟩
      case inr.inr.inl =>
        rw [henc, ofNat_eq_of_toNat (b := b) (by omega), ofNat_eq_of_toNat (b := b₁) (by omega),
          ofNat_eq_of_toNat (b := b₂) (by omega)]
        rfl
      all_goals omega
    | four hn hn' hlow hhigh =>
      obtain ⟨b₁, x₁, rest, rfl, hb₁, hge₁, hle₁, h⟩ :=
        exists_of_piecesAfter_continue rfl (by simp only; omega) h
      obtain ⟨b₂, x₂, rest, rfl, hb₂, -, hle₂, h⟩ :=
        exists_of_piecesAfter_continue rfl (Nat.le_refl _) h
      obtain ⟨b₃, x₃, rest, rfl, hb₃, hle₃, hc, hps⟩ :=
        exists_of_piecesAfter_last rfl (Nat.le_refl _) h
      simp only at hge₁ hle₁ hc
      change x₂ + 0x80 ≤ 0xBF at hle₂
      change x₃ + 0x80 ≤ 0xBF at hle₃
      have hv : c.toNat = (((b.toNat - 0xF0) * 64 + x₁) * 64 + x₂) * 64 + x₃ := by
        rw [hc, toNat_ofNat_of_isValidChar (by unfold Nat.isValidChar; omega)]
      refine ⟨rest, ?_, hps⟩
      rcases encodeChar_cases c with ⟨hlt, -⟩ | ⟨-, hlt, -⟩ | ⟨-, hlt, -⟩ | ⟨-, -, henc⟩
      case inr.inr.inr =>
        rw [henc, ofNat_eq_of_toNat (b := b) (by omega), ofNat_eq_of_toNat (b := b₁) (by omega),
          ofNat_eq_of_toNat (b := b₂) (by omega), ofNat_eq_of_toNat (b := b₃) (by omega)]
        rfl
      all_goals omega
    | illFormed => cases h

/-! ## Texts

Decoding takes one character after the other off the front, so it undoes encoding and nothing else.
-/

/-- An encoded text decodes to its characters. -/
theorem pieces_encode (text : String) : pieces (encode text) = text.toList.map some := by
  rw [pieces, encode]
  induction text.toList with
  | nil => rfl
  | cons c cs ih => rw [List.flatMap_cons, piecesAfter_encodeChar_append, ih, List.map_cons]

/-- Bytes that decode to characters are their encoding. -/
theorem eq_flatMap_of_pieces {cs : List Char} (h : pieces bytes = cs.map some) :
    bytes = cs.flatMap String.utf8EncodeChar := by
  rw [pieces] at h
  induction cs generalizing bytes with
  | nil =>
    cases bytes with
    | nil => rfl
    | cons b bytes =>
      -- every byte makes a piece
      rw [piecesAfter] at h
      split at h
      · cases h
      · exact absurd h (piecesAfter_some_ne_nil _ _)
      · cases h
  | cons c cs ih =>
    obtain ⟨rest, rfl, hrest⟩ := exists_of_piecesAfter_eq_cons h
    rw [List.flatMap_cons, ih hrest]

/-- No fault is among the pieces exactly if all are characters. -/
theorem mapM_id_eq_some_iff {α : Type} {l : List (Option α)} {as : List α} :
    l.mapM id = some as ↔ l = as.map some := by
  induction l generalizing as with
  | nil => cases as <;> simp
  | cons a l ih =>
    cases a with
    | none => cases as <;> simp
    | some a => cases as <;> simp [Option.bind_eq_some_iff, ih, and_assoc, and_comm]

/-- **Bytes are read as a text exactly if the text is spelled by them.** -/
theorem decode?_eq_some_iff {text : String} : decode? bytes = some text ↔ encode text = bytes := by
  rw [decode?, Option.map_eq_some_iff]
  constructor
  · rintro ⟨cs, hcs, rfl⟩
    rw [mapM_id_eq_some_iff] at hcs
    rw [encode, String.toList_ofList, ← eq_flatMap_of_pieces hcs]
  · rintro rfl
    exact ⟨text.toList, mapM_id_eq_some_iff.mpr (pieces_encode text), String.ofList_toList⟩

theorem decode?_eq_none_iff : decode? bytes = none ↔ ∀ text, encode text ≠ bytes := by
  rw [Option.eq_none_iff_forall_ne_some]
  exact forall_congr' fun text => not_congr decode?_eq_some_iff

theorem encode_injective {text text' : String} (h : encode text = encode text') : text = text' :=
  Option.some.inj ((decode?_eq_some_iff.mpr h).symm.trans (decode?_eq_some_iff.mpr rfl))

end EdgeInclude.Utf8
