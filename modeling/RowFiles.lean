import RowFiles.Scenario.Answer
import RowFiles.Proofs.Runs
import RowFiles.Proofs.Store.Tables
import RowFiles.Proofs.Store.Coherence
import RowFiles.Proofs.Lock.Arena
import RowFiles.Proofs.Lock.Exclusion
import RowFiles.Proofs.Store.Caching
import RowFiles.Proofs.Store.Transparency
import RowFiles.Proofs.Files.Catalogs
import RowFiles.Proofs.Files.Layout
import RowFiles.Proofs.Files.Readers
import RowFiles.Proofs.Files.RoundTrip
import RowFiles.Proofs.Interleaving
import RowFiles.Proofs.Lock.Round
import RowFiles.Proofs.Store.Outages
import RowFiles.Proofs.Carried
import RowFiles.Proofs.Files.Listings
import RowFiles.Proofs.Files.Directories
import RowFiles.Proofs.Files.Copies
import RowFiles.Proofs.Files.Sites
import RowFiles.Proofs.Files.SiteRuns
import RowFiles.Proofs.Files.Maps
import RowFiles.Proofs.Files.Answers
import RowFiles.Proofs.Files.Transfers
import RowFiles.Proofs.Files.Ownership
import RowFiles.Proofs.Files.CachedListings
import RowFiles.Proofs.Files.Durability
import RowFiles.Proofs.Store.Cells
import RowFiles.Proofs.Store.Stacks
import RowFiles.Proofs.Lock.Stacks
import RowFiles.Proofs.Files.Refusals
import RowFiles.Proofs.Files.BrokenMoves
import RowFiles.Proofs.Files.Reopening
import RowFiles.Proofs.Files.Syncing
import RowFiles.Proofs.Lock.Scenes
import RowFiles.Proofs.Lock.Recovery
import RowFiles.Proofs.Lock.Failures
import RowFiles.Proofs.Store.Shards
import RowFiles.Proofs.Store.Spaces
import RowFiles.Proofs.Store.Isolation
import RowFiles.Proofs.Store.RefusedStatements
import RowFiles.Proofs.Store.Pointers
import RowFiles.Proofs.Files.Overwrites
import RowFiles.Proofs.Files.FrailWriters
import RowFiles.Proofs.Files.FailedAppends
import RowFiles.Proofs.Files.Snapshots
import RowFiles.Proofs.Files.Twins
import RowFiles.Proofs.Store.Footprints
import RowFiles.Proofs.Store.Quays
import RowFiles.Proofs.Files.Docks
import RowFiles.Proofs.Files.HandOvers
import RowFiles.Proofs.Store.Delimiters
import RowFiles.Proofs.Store.Evictions
import RowFiles.Proofs.Schedules
import RowFiles.Proofs.Shutdowns
import RowFiles.Proofs.Registrations
import RowFiles.Proofs.Periods
import RowFiles.Proofs.Files.RefusedFlushes
import RowFiles.Proofs.Files.FrailReaders
import RowFiles.Proofs.Files.Cursors
import RowFiles.Proofs.Store.Removals
import RowFiles.Proofs.Lock.Expiry
import RowFiles.Proofs.Ages
import RowFiles.Proofs.Store.Whims
import RowFiles.Proofs.Store.FailedRemovals
import RowFiles.Proofs.Files.FickleCatalogs
import RowFiles.Proofs.Files.TornLengths
import RowFiles.Proofs.Files.FailedDeletions
import RowFiles.Proofs.Store.Entries
