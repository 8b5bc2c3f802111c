import IoUring.Cursor
import IoUring.Ledger
import IoUring.Model
import IoUring.Fread
import IoUring.FreadLoop
import IoUring.FreadSpec
import IoUring.Session
import IoUring.EarlyExit
import IoUring.Open
import IoUring.BlockCount
import IoUring.OpenSpec
import IoUring.Delivery
import IoUring.Completion
import IoUring.CompletionRing
import IoUring.Chunking
import IoUring.Resources
import IoUring.Balance
import IoUring.Runs
import IoUring.Wakeup
import IoUring.Interleave
import IoUring.Plain
import IoUring.Cp
import IoUring.CpRing
import IoUring.CpSpec
import IoUring.Blocks
import IoUring.MaskedRing
import IoUring.Drain
import IoUring.Manual
import IoUring.ManualRing
import IoUring.ManualExit
import IoUring.Polling
import IoUring.PollingSpec
import IoUring.OmpPolling
import IoUring.SingleVec
import IoUring.Mixed
import IoUring.MixedSpec
import IoUring.HandOver
import IoUring.Poll
import IoUring.Reread
import IoUring.Endless
import IoUring.FillCount
import IoUring.ReadEnds
import IoUring.PollingOpen
import IoUring.Deferred
import IoUring.DeferredSpec
import IoUring.DeferredEnds
import IoUring.MyRead
import IoUring.MyReadSpec
import IoUring.ManualWrite
import IoUring.PollingMain
import IoUring.Holding
import IoUring.Liburing
import IoUring.LiburingSpec
import IoUring.Lines
import IoUring.TextFile
import IoUring.CatAll
import IoUring.PlainCat
import IoUring.BothCats
import IoUring.ParallelFor
import IoUring.Device
import IoUring.DeviceSpec
import IoUring.Writer
