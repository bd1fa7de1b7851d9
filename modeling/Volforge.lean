import Volforge.Lib.Run
import Volforge.Lib.Sorted
import Volforge.Core.Backtest
import Volforge.Core.Lookahead
import Volforge.Core.Correctness.Books
import Volforge.Core.Correctness.Lifecycle
import Volforge.Core.Correctness.Rules
import Volforge.Core.Correctness.Sessions
import Volforge.Core.Correctness.Fills
import Volforge.Core.Correctness.Truncation
import Volforge.Core.Correctness.Forming
import Volforge.Core.Correctness.Stale
import Volforge.Core.Correctness.Universe
import Volforge.Core.Correctness.MemorySource
import Volforge.Core.Correctness.Isolation
import Volforge.Store.Correctness.Codec
import Volforge.Lib.Crc
import Volforge.Store.Correctness.Layout
import Volforge.Store.Correctness.Opened
import Volforge.Store.Correctness.Image
import Volforge.Store.Correctness.Bounds
import Volforge.Lib.Indexed
import Volforge.Core.Correctness.Registry
import Volforge.Store.Correctness.Registration
import Volforge.Store.Correctness.Capacity
import Volforge.Store.Correctness.RoundTrip
import Volforge.Store.Correctness.Trust
import Volforge.Store.Correctness.Shared
import Volforge.Core.Correctness.Indicators
import Volforge.Core.Correctness.Crossings
import Volforge.Core.Correctness.Parity
import Volforge.Core.Correctness.Positions
import Volforge.Core.Correctness.Marks
import Volforge.Core.Correctness.Erasure
import Volforge.Core.Correctness.OneDay
import Volforge.Lib.Worst
import Volforge.Core.Correctness.Grouping
import Volforge.Core.Correctness.TimedExits
import Volforge.Core.Correctness.TimeOfDay
import Volforge.Core.Correctness.Settlement
import Volforge.Core.Correctness.MarginCover
import Volforge.Store.Correctness.Reference
import Volforge.Adapters.Correctness.Rows
import Volforge.Adapters.Correctness.Day
import Volforge.Adapters.Correctness.Archive
import Volforge.Lib.Calendar
import Volforge.Core.Correctness.CivilDates
import Volforge.Core.Correctness.TimeText
import Volforge.Core.Correctness.Resampling
import Volforge.Lib.Falls
import Volforge.Analysis.Performance
import Volforge.Analysis.Correctness.Drawdown
import Volforge.Adapters.Correctness.Scanners
import Volforge.Adapters.Correctness.Format
import Volforge.Lib.Reader
import Volforge.Adapters.Correctness.Symbols
import Volforge.Store.Correctness.Truncated
import Volforge.Store.Correctness.Sealing
import Volforge.Lib.Memo
import Volforge.Store.Correctness.Lazy
import Volforge.Store.Correctness.Reread
import Volforge.Store.Correctness.Verified
import Volforge.Core.Correctness.Twins
import Volforge.Store.Correctness.Transparent
import Volforge.Core.Caches
import Volforge.Core.Correctness.Caches
import Volforge.Store.ReferenceFile
import Volforge.Store.Correctness.ReferenceFile
import Volforge.Store.Correctness.Gathered
import Volforge.Adapters.Correctness.Loaded
import Volforge.Examples.Convert
import Volforge.Examples.Correctness.Convert
import Volforge.Core.Correctness.DailyAccounts
import Volforge.Analysis.Correctness.Statistics
import Volforge.Core.Correctness.Opportunities
import Volforge.Lib.Gauss
import Volforge.Lib.Bracket
import Volforge.Core.Correctness.Pricing
import Volforge.Core.Correctness.ImpliedVol
import Volforge.Core.Correctness.Waiting
