import Colama.Ganglia.CleanupSpec
import Colama.Ganglia.GmetadCleanup
import Colama.Ganglia.Records
import Colama.Ganglia.Schedule
import Colama.Ganglia.ServerSpec
import Colama.Ganglia.SumLocksSpec
import Colama.Qemu.Block.ByteIoSpec
import Colama.Qemu.Block.MigrationRuns
import Colama.Qemu.Block.MultiwriteCb
import Colama.Qemu.Block.MultiwriteSpec
import Colama.Qemu.Json.Quotes
import Colama.Qemu.Qcow2.CheckSpec
import Colama.Qemu.Qcow2.ClusterOffsetSpec
import Colama.Qemu.Qcow2.ExtHeader
import Colama.Qemu.Qcow2.TableGrowthSpec
import Colama.Qemu.Qcow2.WritesRuns
import Colama.Spice.ClientCacheSpec
import Colama.Spice.DuplicatesSpec
import Colama.Spice.Glz.DecoderSafe
import Colama.Spice.Glz.DictionaryAccount
import Colama.Spice.Glz.Header
import Colama.Spice.Inputs
import Colama.Spice.Lz.Expand
import Colama.Spice.Lz.RoundTrip
import Colama.Spice.MarshallerResume
import Colama.Spice.PaletteInside
import Colama.Spice.PixmapSyncSpec
import Colama.Spice.Quic.RunLengthRuns
import Colama.Spice.Qxl.ImageSpec
import Colama.Spice.Qxl.PathSpec
import Colama.Spice.RedChannel.AckWindowSpec
import Colama.Spice.RedChannel.IncomingSpec
import Colama.Spice.RedChannel.PipeSpec
import Colama.Spice.RegionBounds
import Colama.Spice.VdiPort.MigrateSafe
import Colama.Spice.VdiPort.TokensSpec
import Colama.Tightvnc.EventBufSpec
import Colama.Tightvnc.PixelFormats
import Colama.Vnc4.Blacklist
import Colama.Vnc4.ClientViewSpec
import Colama.Vnc4.ConnectionSpec
import Colama.Vnc4.FdOutStream
import Colama.Vnc4.HextileRoundTrip
import Colama.Vnc4.MsgWriter
import Colama.Vnc4.ZrleFormat
import Colama.Vnc4.ZrleOverhead
import Colama.Xvnc.CopyRects
import Colama.Xvnc.PaletteSpec
import Colama.Xvnc.RreSpec
import Colama.Xvnc.TightFill
import Colama.Xvnc.Translate
import Colama.Xvnc.UpdateCount
