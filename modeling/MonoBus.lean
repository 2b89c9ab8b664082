import MonoBus.Framework.Stuffing
import MonoBus.Framework.FrameParser
import MonoBus.Framework.MachineInt
import MonoBus.Framework.Bytes
import MonoBus.Framework.Memory
import MonoBus.Framework.Sweep
import MonoBus.Framework.Queue
import MonoBus.Framework.Acyclic
import MonoBus.Construction.BusMessage
import MonoBus.Construction.Pixels
import MonoBus.Framework.Layers
import MonoBus.Framework.Simulation
import MonoBus.Construction.Display
import MonoBus.Construction.OscReader
import MonoBus.Construction.OscEncoding
import MonoBus.Construction.Dispatch
import MonoBus.Construction.MessageCalls
import MonoBus.Construction.LayerEffects
import MonoBus.Construction.Daemon
import MonoBus.Construction.MessageEnds
import MonoBus.Construction.PacketTree
import MonoBus.Construction.BundleWalk
import MonoBus.Construction.OscWriter
import MonoBus.Construction.Client
import MonoBus.Properties.Compositor
import MonoBus.Properties.Framing
import MonoBus.Properties.PatternDispatch
import MonoBus.Properties.BlobBounds
import MonoBus.Properties.PbmLayout
import MonoBus.Properties.Schedule
import MonoBus.Properties.Truncation
import MonoBus.Properties.BundleTraversal
import MonoBus.Properties.Termination
import MonoBus.Properties.ClientDaemon
import MonoBus.Framework.Scatter
import MonoBus.Construction.Panel
import MonoBus.Properties.PanelFrame
import MonoBus.Construction.Clipping
import MonoBus.Properties.ExactClipping
import MonoBus.Properties.RefusedBitmap
import MonoBus.Properties.Conservation
import MonoBus.Framework.Transition
import MonoBus.Construction.Lifecycle
import MonoBus.Properties.StopRequest
import MonoBus.Framework.Packing
import MonoBus.Construction.PbmFile
import MonoBus.Properties.ClientImage
import MonoBus.Framework.FrameReader
import MonoBus.Construction.Slip
import MonoBus.Construction.SlipStream
import MonoBus.Framework.CutFrames
import MonoBus.Construction.SlipSender
import MonoBus.Properties.Segmentation
import MonoBus.Properties.ShortSends
import MonoBus.Construction.SlipReceiver
import MonoBus.Properties.RefusedMessages
import MonoBus.Construction.PrefixStream
import MonoBus.Properties.PrefixSegments
import MonoBus.Framework.RingMemory
import MonoBus.Construction.Varchunk
import MonoBus.Construction.RingLayout
import MonoBus.Construction.RingInvariant
import MonoBus.Properties.Capacity
import MonoBus.Properties.HandOff
import MonoBus.Construction.MessageReads
import MonoBus.Construction.ArgumentWalk
import MonoBus.Construction.PacketReads
import MonoBus.Construction.PacketVisits
import MonoBus.Properties.ReadBounds
import MonoBus.Construction.SchedList
import MonoBus.Framework.SortedInsertion
import MonoBus.Properties.SortedSchedule
import MonoBus.Framework.SingleError
import MonoBus.Properties.ErrorDetection
import MonoBus.Construction.BeatFrames
import MonoBus.Properties.FrameLength
import MonoBus.Construction.Resources
import MonoBus.Construction.ResourceLedger
import MonoBus.Properties.InitFailures
import MonoBus.Properties.BusReader
import MonoBus.Framework.DrainRounds
import MonoBus.Construction.BeatThread
import MonoBus.Properties.DispatchBeat
import MonoBus.Construction.SchedMemory
import MonoBus.Properties.ScheduleMemory
import MonoBus.Properties.BusStream
import MonoBus.Framework.Agenda
import MonoBus.Construction.Drawing
import MonoBus.Properties.AgendaRun
import MonoBus.Properties.ClientPanel
import MonoBus.Construction.UdpReceiver
import MonoBus.Properties.UdpDelivery
import MonoBus.Construction.WriterFrames
import MonoBus.Construction.PacketCopy
import MonoBus.Properties.PacketCopies
import MonoBus.Construction.VarArgs
import MonoBus.Properties.VarArgRoundTrip
import MonoBus.Construction.StreamUrl
import MonoBus.Properties.UrlGrammar
import MonoBus.Properties.TreeDispatch
