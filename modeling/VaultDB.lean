import VaultDB.Library.Run
import VaultDB.Library.Codec
import VaultDB.Library.FileStream
import VaultDB.Library.Assoc
import VaultDB.Library.Layers
import VaultDB.Library.Text
import VaultDB.Library.Lines
import VaultDB.Library.Lock
import VaultDB.Library.Numbers
import VaultDB.Library.Words
import VaultDB.Library.Recency
import VaultDB.Library.Deadlines
import VaultDB.Library.Bucket
import VaultDB.Library.Sparse
import VaultDB.Library.Collapse
import VaultDB.Library.Density
import VaultDB.Library.Pieces
import VaultDB.Library.Python
import VaultDB.BloomFilter
import VaultDB.LRUCache
import VaultDB.MemTable
import VaultDB.WAL
import VaultDB.SSTable
import VaultDB.Expiry
import VaultDB.LSMEngine
import VaultDB.TableSet
import VaultDB.Invariant
import VaultDB.Runs
import VaultDB.Refinement
import VaultDB.TableFiles
import VaultDB.Reload
import VaultDB.Lives
import VaultDB.Restart
import VaultDB.TornLog
import VaultDB.TornTable
import VaultDB.FlushCrash
import VaultDB.LogReplay
import VaultDB.CompactCrash
import VaultDB.WriteFailure
import VaultDB.LogFailure
import VaultDB.Connection
import VaultDB.Values
import VaultDB.Parser
import VaultDB.Server
import VaultDB.Delivery
import VaultDB.LogDecoding
import VaultDB.TableDecoding
import VaultDB.Merge
import VaultDB.Alignment
import VaultDB.Framing
import VaultDB.Responses
import VaultDB.Accounting
import VaultDB.CachePolicy
import VaultDB.Reads
import VaultDB.Eviction
import VaultDB.Threshold
import VaultDB.LongValues
import VaultDB.Coherence
import VaultDB.Grammar
import VaultDB.TimeToLive
import VaultDB.Verbatim
import VaultDB.Sections
import VaultDB.Linearizability
import VaultDB.Kills
import VaultDB.Durability
import VaultDB.Statistics
import VaultDB.Service
import VaultDB.Serving
import VaultDB.Daemon
import VaultDB.Availability
import VaultDB.Isolation
import VaultDB.Lifetimes
import VaultDB.Backlog
import VaultDB.CompactionThread
import VaultDB.Inclusion
import VaultDB.Scan
import VaultDB.Schedules
import VaultDB.FalsePositives
import VaultDB.Turns
import VaultDB.Outages
import VaultDB.Clients
