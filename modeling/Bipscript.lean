import Bipscript.Library.Run
import Bipscript.Library.Digraph
import Bipscript.Library.OrderedMap
import Bipscript.Position
import Bipscript.EventBuffer
import Bipscript.MidiEvent
import Bipscript.MidiPort
import Bipscript.MixerControl
import Bipscript.Mixer
import Bipscript.MixerGain
import Bipscript.MixerConnect
import Bipscript.ObjectCache
import Bipscript.InstanceCache
import Bipscript.MixerCache
import Bipscript.PluginCache
import Bipscript.Graph
import Bipscript.Connect
import Bipscript.AudioEngine
import Bipscript.Lifetime
import Bipscript.Restart
import Bipscript.Dispatch
import Bipscript.TransportMaster
import Bipscript.TransportRuns
import Bipscript.PositionSum
import Bipscript.MixerReuse
import Bipscript.Controllers
import Bipscript.Library.Chain
import Bipscript.LinkedList
import Bipscript.BufferRuns
import Bipscript.BufferCalls
import Bipscript.ConnectErrors
import Bipscript.PositionOrder
import Bipscript.ObjectCollector
import Bipscript.RestartNotice
import Bipscript.CollectorThreads
import Bipscript.MidiInput
import Bipscript.EventOrder
import Bipscript.MidiSink
import Bipscript.PortRuns
import Bipscript.PatternDelivery
import Bipscript.StuckNotes
import Bipscript.Removal
import Bipscript.RemovalHandshake
import Bipscript.Library.Yields
import Bipscript.Contents
import Bipscript.MessageBytes
import Bipscript.Settled
import Bipscript.OrderFree
import Bipscript.ContentsRuns
import Bipscript.AbcReader
import Bipscript.AbcTunes
import Bipscript.AbcTimes
import Bipscript.AbcNotes
import Bipscript.DrumTab
import Bipscript.DrumTabBlocks
import Bipscript.DrumTabHits
import Bipscript.AudioBuffers
import Bipscript.Library.Framing
import Bipscript.WorkerRequests
import Bipscript.WorkerResponses
import Bipscript.OscOutput
import Bipscript.MasterCache
import Bipscript.BeatTrackers
import Bipscript.DepartingTrackers
import Bipscript.MasterRuns
import Bipscript.MixerCapacity
import Bipscript.CountHandlers
import Bipscript.CountIn
import Bipscript.CountInStart
import Bipscript.Library.Machine
import Bipscript.TrackerHops
import Bipscript.OnsetDetector
import Bipscript.Library.Lexicographic
import Bipscript.MmlParser
import Bipscript.MmlLoop
import Bipscript.MmlReader
import Bipscript.MmlReads
import Bipscript.Normalization
import Bipscript.PositionDifference
import Bipscript.TimePosition
import Bipscript.Transpose
import Bipscript.ScheduledBytes
import Bipscript.Library.Interning
import Bipscript.UridMapper
import Bipscript.OscRoundTrip
import Bipscript.MixerDistribution
import Bipscript.EventListRuns
import Bipscript.ListRuns
import Bipscript.Library.DoublyLinked
import Bipscript.Library.Cells
import Bipscript.Tlsf
import Bipscript.TlsfMapping
import Bipscript.TlsfBlocks
import Bipscript.TlsfLists
import Bipscript.TlsfHeap
import Bipscript.TlsfMalloc
import Bipscript.MemoryPool
import Bipscript.MemoryPoolRuns
import Bipscript.Closures
import Bipscript.ClosureRuns
import Bipscript.Dataflow
import Bipscript.MmlPrograms
import Bipscript.MmlTokens
import Bipscript.MmlMeaning
import Bipscript.Playback
import Bipscript.PlaybackRuns
import Bipscript.PatternPlayback
import Bipscript.MmlPerformance
