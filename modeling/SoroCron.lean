import SoroCron.Guarantees.Escrow
import SoroCron.Guarantees.Exits
import SoroCron.Guarantees.Batch
import SoroCron.Guarantees.Due
import SoroCron.Guarantees.Misses
import SoroCron.Guarantees.Upgrades
import SoroCron.Guarantees.Slots
import SoroCron.Guarantees.Calendar
import SoroCron.Guarantees.StartAt
import SoroCron.Guarantees.Failures
import SoroCron.Guarantees.Followers
import SoroCron.Guarantees.OwnerIndex
import SoroCron.Guarantees.Isolation
import SoroCron.Guarantees.Handovers
import SoroCron.Guarantees.Rotation
import SoroCron.Guarantees.Assignment
import SoroCron.Guarantees.EventLog
import SoroCron.Guarantees.Profit
import SoroCron.Guarantees.Times
import SoroCron.Guarantees.Fees
import SoroCron.Guarantees.IndexedJobs
import SoroCron.Guarantees.Epochs
import SoroCron.Guarantees.Creation
import SoroCron.Guarantees.Remaining
import SoroCron.Guarantees.Pause
import SoroCron.Guarantees.Halt
import SoroCron.Guarantees.Expiry
import SoroCron.Guarantees.Reordering
import SoroCron.Guarantees.Updates
import SoroCron.Guarantees.Status
import SoroCron.Guarantees.BadJobs
import SoroCron.Guarantees.Averages
import SoroCron.Guarantees.Offers
import SoroCron.Guarantees.Paging
import SoroCron.Guarantees.Signing
import SoroCron.Guarantees.Delays
import SoroCron.Guarantees.Counts
import SoroCron.Guarantees.OwnerAlerts
import SoroCron.Guarantees.JobWatching
import SoroCron.Guarantees.Leaderboard
import SoroCron.Guarantees.Outages
import SoroCron.Guarantees.Proposals
import SoroCron.Guarantees.Billing
import SoroCron.Guarantees.Vested
import SoroCron.Guarantees.Combining
import SoroCron.Guarantees.Guarding
import SoroCron.Sdk.Amounts
import SoroCron.KeeperRs.Errors
import SoroCron.KeeperBot.Channels
import SoroCron.KeeperBot.Alerts
import SoroCron.KeeperBot.Failover
import SoroCron.KeeperRs.Tick
import SoroCron.KeeperBot.Sending
import SoroCron.KeeperBot.Parsing
