import BlockSync.Main
import BlockSync.Proofs.Block.Account
import BlockSync.Proofs.Cache.Coherent
import BlockSync.Proofs.Cache.Distinct
import BlockSync.Proofs.Cache.Unreadable
import BlockSync.Proofs.Check.Clean
import BlockSync.Proofs.Check.Convergence
import BlockSync.Proofs.Check.Listing
import BlockSync.Proofs.Check.Migrated
import BlockSync.Proofs.Check.Order
import BlockSync.Proofs.Check.ReturnTag
import BlockSync.Proofs.Command.Layers
import BlockSync.Proofs.Disk.Search
import BlockSync.Proofs.Migration
import BlockSync.Proofs.Migration.Longest
import BlockSync.Proofs.Options.RootMarker
import BlockSync.Proofs.Path.Ancestors
import BlockSync.Proofs.Path.Join
import BlockSync.Proofs.Path.Relative
import BlockSync.Proofs.Repair.Atomic
import BlockSync.Proofs.Repair.Deduplicated
import BlockSync.Proofs.Repair.Pointwise
import BlockSync.Proofs.Report.Session
import BlockSync.Proofs.Run.DryRun
import BlockSync.Proofs.Run.Repairs
import BlockSync.Proofs.Run.Stored
import BlockSync.Proofs.Tag.Grammar
import BlockSync.Proofs.Tag.Render
import BlockSync.Proofs.Checksum.Messages
import BlockSync.Proofs.Disk.Parents
import BlockSync.Proofs.Disk.Replacing
