import Celestite.Channel.Fifo
import Celestite.Channel.Throwing
import Celestite.Channel.Sharing
import Celestite.Pipeline.Progress
import Celestite.ThreadPool.Progress
import Celestite.ThreadPool.Barrier
import Celestite.RingBuffer.Refinement
import Celestite.Stream.Fields
import Celestite.Stream.Bounds
import Celestite.ArcString.Runs
import Celestite.Arena.Refinement
import Celestite.Morton.Order
import Celestite.Morton.Cells
import Celestite.Dso.Loads
import Celestite.FileStream.Lengths
import Celestite.RingBuffer.Storage
import Celestite.RingBuffer.Destruction
import Celestite.Stream.Edits
import Celestite.Stream.Copy
import Celestite.Arena.Fitting
import Celestite.Arena.Packing
import Celestite.FileStream.Opening
import Celestite.RingBuffer.Exceptions
import Celestite.RingBuffer.History
import Celestite.ArcString.Errors
import Celestite.ArcString.SystemErrors
import Celestite.NumCast.Exact
import Celestite.Stream.WireFormat
import Celestite.Stream.ReadNums
import Celestite.Stream.WriteNums
import Celestite.Math.IntPow
import Celestite.SysUtils.MemInfo
import Celestite.TermColor.Format
import Celestite.FileStream.Interchange
import Celestite.FileStream.Copying
import Celestite.FileStream.Characters
import Celestite.FileStream.Files
import Celestite.ThreadPool.Getting
import Celestite.SysDirs.Runs
import Celestite.AnyRef.Safety
