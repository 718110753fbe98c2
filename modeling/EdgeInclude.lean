import EdgeInclude.Batch.Resolver
import EdgeInclude.Cancellation.Interleaving
import EdgeInclude.Cancellation.Registry
import EdgeInclude.Config.File
import EdgeInclude.Config.Printer
import EdgeInclude.Duration.Printer
import EdgeInclude.Include.Edit
import EdgeInclude.Include.Page
import EdgeInclude.Proofs.Batch.Accounting
import EdgeInclude.Proofs.Batch.ClockRange
import EdgeInclude.Proofs.Batch.GivenUp
import EdgeInclude.Proofs.Batch.Isolation
import EdgeInclude.Proofs.Batch.Progress
import EdgeInclude.Proofs.Batch.RootCause
import EdgeInclude.Proofs.Cancellation.AtRest
import EdgeInclude.Proofs.Cancellation.ExactReach
import EdgeInclude.Proofs.Config.Packages
import EdgeInclude.Proofs.Duration.Exactness
import EdgeInclude.Proofs.Duration.RoundTrip
import EdgeInclude.Proofs.Fetch.Choice
import EdgeInclude.Proofs.Include.Forwarding
import EdgeInclude.Proofs.Include.InsertionOrder
import EdgeInclude.Proofs.Include.Listing
import EdgeInclude.Proofs.Include.LoggedTimes
import EdgeInclude.Proofs.Include.Pages
import EdgeInclude.Proofs.Include.QuoteStyles
import EdgeInclude.Proofs.Include.Scanning
import EdgeInclude.Proofs.Log.HumanLines
import EdgeInclude.Proofs.Request.ScopedReach
import EdgeInclude.Proofs.Template.Positions
import EdgeInclude.Request.Table
