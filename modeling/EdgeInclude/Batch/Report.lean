import EdgeInclude.Batch.Error
import EdgeInclude.Log.Logger

/-!
# Reports of a batch

What a batch tells about itself while it runs and when it ends, and the diagnostic lines that say
it.
-/

namespace EdgeInclude.Batch

/-- What a batch tells about itself. -/
inductive Report where
  /-- The fetch for a tag failed, or was given up. -/
  | fetchFailed (tag : TagRef) (error : BatchError)
  /-- A fragment was fetched and then not handed over. -/
  | fetchCancelled (tag : TagRef) (reason : CancelReason)
  /-- A worker broke down. -/
  | workerFailed (tag : TagRef) (message : String)
  /-- The deadline was reached; so many of the fragments had been collected. -/
  | deadlineExceeded (tags collected : Nat)
  /-- The batch ended with an error. -/
  | failed (tags : Nat) (error : BatchError) (elapsed : Duration)
  /-- The batch ended with all fragments. -/
  | resolved (tags : Nat) (elapsed : Duration)
deriving DecidableEq

namespace Report

/-- The level of the line. -/
def level : Report → Log.Level
  | fetchFailed .. | fetchCancelled .. | workerFailed .. | deadlineExceeded .. => .warn
  | failed .. => .error
  | resolved .. => .debug

/-- The message of the line. -/
def message : Report → String
  | fetchFailed .. => "esi fetch failed"
  | fetchCancelled .. => "esi fetch cancelled"
  | workerFailed .. => "esi worker failed"
  | deadlineExceeded .. => "esi batch deadline exceeded"
  | failed .. => "esi batch failed"
  | resolved .. => "esi batch resolved"

/-- The fields that name a tag. -/
def tagFields (tag : TagRef) : Log.Fields :=
  (({} : Log.Fields).count "index" tag.index).text "tag" tag.raw

/-- The fields of the line. -/
def fields : Report → Log.Fields
  | fetchFailed tag error => (tagFields tag).text "error" error.message
  | fetchCancelled tag reason => (tagFields tag).text "reason" reason.text
  | workerFailed tag message => (tagFields tag).text "error" message
  | deadlineExceeded tags collected =>
    (({} : Log.Fields).count "entities" tags).count "published" collected
  | failed tags error elapsed =>
    (((({} : Log.Fields).count "entities" tags).flag "cancelled" error.isCancellation).text
      "error" error.message).millis "elapsed_ms" elapsed
  | resolved tags elapsed =>
    (({} : Log.Fields).count "entities" tags).millis "elapsed_ms" elapsed

/-- The line that a logger writes of a report, `elapsed` microseconds after the logger was made. -/
def line? (r : Report) (logger : Log.Logger) (elapsed : Nat) : Option Log.Line :=
  logger.line? r.level r.message r.fields elapsed

end Report

end EdgeInclude.Batch
