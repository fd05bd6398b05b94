import Xeneva.Ipc.Slots
import Xeneva.Ipc.Reply
import Xeneva.Hal.EdfBound
import Xeneva.Hal.EdfPeriods
import Xeneva.Hal.NextThread
import Xeneva.Net.NetproxyOrder
import Xeneva.Net.TcpStream
import Xeneva.Net.SendWindow
import Xeneva.Net.ListenerRun
import Xeneva.Mm.PmmLedger
import Xeneva.Mm.PmmFit
import Xeneva.Mm.PmmPool
import Xeneva.Fs.FatFull
import Xeneva.Fs.FatTreeRun
import Xeneva.Hal.Signal
import Xeneva.Sound.SndproxyOrder
import Xeneva.Fs.PipeRun
import Xeneva.Fs.SrvfsOnce
import Xeneva.Hal.TerminationRun
import Xeneva.Drv.AudrvUnload
import Xeneva.Cap.Rights
import Xeneva.Cap.FileNodes
import Xeneva.Hal.DeadlinesRun
import Xeneva.Hal.Alarm
import Xeneva.Sync.PollRun
import Xeneva.Net.TcpWindow
import Xeneva.Net.Udp
import Xeneva.Net.TcpDispatch
import Xeneva.Net.RouteTable
import Xeneva.Drv.GpuFrames
import Xeneva.Bt.H4Stream
import Xeneva.Bt.SdpRound
import Xeneva.Bt.P256Ecdh
import Xeneva.Bt.L2capRun
import Xeneva.Bt.SmpRun
import Xeneva.Deodhai.DamageQuiet
import Xeneva.Deodhai.Resize
import Xeneva.Svc.Svcmgr
import Xeneva.Shell.Restore
import Xeneva.Mm.VmmTeardown
import Xeneva.Hal.WallClock
import Xeneva.Drv.GpuScatter
import Xeneva.Cap.HwBounds
import Xeneva.Sync.PollResult
import Xeneva.Fs.FatSeek
import Xeneva.Fs.FssrvMap
import Xeneva.Ipc.Postbox
import Xeneva.Mm.MmapRun
import Xeneva.Fs.FatReadDir
import Xeneva.Fs.FatErase
import Xeneva.Deodhai.Clip
import Xeneva.Fs.Tty
import Xeneva.Deodhai.Compose
import Xeneva.Shell.ArithEval
import Xeneva.Fs.Ext2DirRun
import Xeneva.Bt.Crypto
import Xeneva.Net.Checksum
import Xeneva.Shell.BuiltinsRun
import Xeneva.Loader.UserStackRight
