import OVMesh.Bursts.Envelope
import OVMesh.Engine.History
import OVMesh.Engine.Session
import OVMesh.Engine.SampleQueue
import OVMesh.Spectrum.Chunks
import OVMesh.Spectrum.Components
import OVMesh.Store.Laws
import OVMesh.Store.Observations
import OVMesh.Phy.RoundTrip
import OVMesh.Rak.Sweep
import OVMesh.Discovery.Submission
import OVMesh.Discovery.Replay
import OVMesh.Discovery.Producer
import OVMesh.Discovery.Scheduler
import OVMesh.Discovery.Waveforms
import OVMesh.Discovery.WrapFits
import OVMesh.Gps.History
import OVMesh.Protocol.Classify
import OVMesh.Protocol.Keys
import OVMesh.Store.Receptions
import OVMesh.Store.ActivityRows
import OVMesh.Protocol.WireGuard
import OVMesh.Gps.GeographicPlot
import OVMesh.Gps.NmeaFix
import OVMesh.Store.Utf8
import OVMesh.Phy.Downconverter
import OVMesh.Phy.Transform
import OVMesh.Phy.Receiver
import OVMesh.Discovery.FilterBank
import OVMesh.Discovery.Tones
import OVMesh.Discovery.Wipe
import OVMesh.Report.Sections
import OVMesh.Lib.RingQueue
import OVMesh.Store.Classified
import OVMesh.Lib.Settings
import OVMesh.Desktop.Preferences
import OVMesh.Desktop.Fields
import OVMesh.Desktop.Codec
