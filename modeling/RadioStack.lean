import RadioStack.Lib.Outcome
import RadioStack.Lib.Calls
import RadioStack.Lib.Runs
import RadioStack.Lib.Segments
import RadioStack.Lib.MarkedQueue
import RadioStack.Lib.Gluing
import RadioStack.Lib.Solving
import RadioStack.Lib.DepthFirst
import RadioStack.Liquidsoap.Frame
import RadioStack.Liquidsoap.Generator
import RadioStack.Liquidsoap.Tracks
import RadioStack.Liquidsoap.FromFrames
import RadioStack.Liquidsoap.FromFramesFifo
import RadioStack.Liquidsoap.FromFramesTracks
import RadioStack.Liquidsoap.FromAudioVideo
import RadioStack.Liquidsoap.FromAudioVideoSync
import RadioStack.Liquidsoap.FromAudioVideoPut
import RadioStack.Liquidsoap.FromAudioVideoQueues
import RadioStack.Liquidsoap.FromAudioVideoFill
import RadioStack.Liquidsoap.FromAudioVideoWhole
import RadioStack.Liquidsoap.FromAudioVideoTimes
import RadioStack.Liquidsoap.FromAudioVideoAligned
import RadioStack.Liquidsoap.FromAudioVideoStreams
import RadioStack.Liquidsoap.FromAudioVideoLossless
import RadioStack.Liquidsoap.FromAudioVideoBreaks
import RadioStack.Liquidsoap.FromAudioVideoPlus
import RadioStack.Liquidsoap.FromAudioVideoOverfull
import RadioStack.Liquidsoap.FromAudioVideoClearing
import RadioStack.Liquidsoap.Activations
import RadioStack.Liquidsoap.Caching
import RadioStack.Liquidsoap.ClockVariables
import RadioStack.Liquidsoap.ClockHeap
import RadioStack.Liquidsoap.ClockMerge
import RadioStack.Liquidsoap.ClockUnification
import RadioStack.Liquidsoap.Unifier
import RadioStack.Liquidsoap.Kinds
import RadioStack.Liquidsoap.KindUnification
import RadioStack.Liquidsoap.ClockOutputs
import RadioStack.Liquidsoap.ClockSections
import RadioStack.Liquidsoap.ClockStarting
import RadioStack.Liquidsoap.ClockLifeCycle
import RadioStack.Liquidsoap.ClockRunning
import RadioStack.Liquidsoap.ClockAttach
import RadioStack.Liquidsoap.LangTypes
import RadioStack.Liquidsoap.LangTerms
import RadioStack.Liquidsoap.LangEval
import RadioStack.Liquidsoap.LangReads
import RadioStack.Liquidsoap.LangCapture
import RadioStack.Liquidsoap.LangCheck
import RadioStack.Liquidsoap.LangSubtypeRules
import RadioStack.Liquidsoap.LangSubtyping
import RadioStack.Liquidsoap.LangSubtypeCheck
import RadioStack.Liquidsoap.LangLinks
import RadioStack.Liquidsoap.LangOpen
import RadioStack.Liquidsoap.LangToplevel
import RadioStack.Liquidsoap.LangToplevelScope
import RadioStack.Lib.Moves
import RadioStack.Liquidsoap.LangStore
import RadioStack.Liquidsoap.LangCheckStore
import RadioStack.Liquidsoap.LangAlike
import RadioStack.Liquidsoap.LangToplevelTypes
import RadioStack.Liquidsoap.LangPp
import RadioStack.Liquidsoap.Request
import RadioStack.Liquidsoap.RequestResolve
import RadioStack.Liquidsoap.RequestStatus
import RadioStack.Liquidsoap.RequestQueue
import RadioStack.Liquidsoap.Switch
import RadioStack.Liquidsoap.Cross
import RadioStack.Liquidsoap.CueCut
import RadioStack.Liquidsoap.Server
import RadioStack.Liquidsoap.TrackSkipping
import RadioStack.Liquidsoap.HlsOutput
import RadioStack.Liquidsoap.HlsFiles
import RadioStack.Liquidsoap.HlsNumbering
import RadioStack.Liquidsoap.HlsSegments
import RadioStack.Lib.Interleaving
import RadioStack.Liquidsoap.OggMerge
import RadioStack.Liquidsoap.OggFlush
import RadioStack.Lib.RingCounters
import RadioStack.Lib.RefCounts
import RadioStack.Lib.InlineBlocks
import RadioStack.Liquidsoap.IoRing
import RadioStack.Liquidsoap.IoRingInput
import RadioStack.Icecast.StreamQueue
import RadioStack.Icecast.Listeners
import RadioStack.Icecast.SourceMain
import RadioStack.Icecast.ListenerStream
import RadioStack.Icecast.Mp3Writer
import RadioStack.Icecast.Mp3Filter
import RadioStack.Icecast.EbmlParse
import RadioStack.Icecast.Ebml
import RadioStack.Icecast.EbmlWalk
import RadioStack.Icecast.EbmlTracks
import RadioStack.Icecast.EbmlSync
import RadioStack.Icecast.Buffer
import RadioStack.Icecast.Refobject
import RadioStack.Icecast.Acl
import RadioStack.Lib.Decimal
import RadioStack.Icecast.Stats
import RadioStack.Icecast.StatsCounters
import RadioStack.Icecast.StatsReplica
import RadioStack.Icecast.Fserve
import RadioStack.Icecast.ListenerCount
import RadioStack.Icecast.Auth
import RadioStack.Icecast.AuthVerdict
import RadioStack.Icecast.AuthThreads
import RadioStack.Icecast.AuthReferences
import RadioStack.Lib.CStrings
import RadioStack.Lib.Base64
import RadioStack.Icecast.Credentials
import RadioStack.Icecast.Paths
import RadioStack.Icecast.ClientStart
import RadioStack.Icecast.BodySlurp
import RadioStack.Icecast.Relays
import RadioStack.Icecast.HttpCn
import RadioStack.Icecast.HttpCnFields
import RadioStack.Icecast.SelectBest
import RadioStack.Icecast.RequestQueue
import RadioStack.Icecast.ListenSockets
import RadioStack.Icecast.ListenSocketRuns
import RadioStack.Icecast.RelayThreadRuns
import RadioStack.Icecast.RelayThreads
import RadioStack.Icecast.Mp3SetTitle
import RadioStack.Icecast.Resourcematch
import RadioStack.Liquidsoap.FrameChunks
import RadioStack.Liquidsoap.FrameMetadata
import RadioStack.Liquidsoap.MetadataGenerator
import RadioStack.Liquidsoap.BlitPieces
import RadioStack.Liquidsoap.Add
import RadioStack.Liquidsoap.Attachments
import RadioStack.Liquidsoap.Append
import RadioStack.Liquidsoap.Sequence
import RadioStack.Lib.Sorting
import RadioStack.Lib.Rings
import RadioStack.Lib.Settling
import RadioStack.Liquidsoap.EncodedOutput
import RadioStack.Liquidsoap.FileDecoder
import RadioStack.Liquidsoap.FileDecoderEnd
import RadioStack.Liquidsoap.FileDecoderSeek
import RadioStack.Liquidsoap.DecoderChoice
import RadioStack.Liquidsoap.GeneratedSeek
import RadioStack.Liquidsoap.LangApplication
import RadioStack.Liquidsoap.Strings
import RadioStack.Liquidsoap.UnifierRuns
import RadioStack.Liquidsoap.Rqueue
import RadioStack.Liquidsoap.Websocket
import RadioStack.Liquidsoap.WebsocketRfc
import RadioStack.Lib.JsonStrings
import RadioStack.Liquidsoap.EscapeUtf8
import RadioStack.Liquidsoap.LangPpNewlines
import RadioStack.Liquidsoap.LangPpEnds
import RadioStack.Lib.Patterns
import RadioStack.Liquidsoap.UrlArgs
import RadioStack.Liquidsoap.ChunkedBodies
import RadioStack.Liquidsoap.FrameSettings
import RadioStack.Icecast.EbmlNumbers
import RadioStack.Icecast.Codecs
import RadioStack.Liquidsoap.Base64Codecs
import RadioStack.Lib.Reading
import RadioStack.Liquidsoap.ReadRetry
import RadioStack.Liquidsoap.WavHeaders
import RadioStack.Liquidsoap.Avi
import RadioStack.Liquidsoap.Id3v2
import RadioStack.Liquidsoap.Id3v2Tags
import RadioStack.Lib.Genlex
import RadioStack.Liquidsoap.Json
import RadioStack.Lib.Blocks
import RadioStack.Lib.FileVersions
import RadioStack.Icecast.TextFiles
import RadioStack.Icecast.Md5
import RadioStack.Icecast.Htpasswd
import RadioStack.Icecast.MatchFiles
import RadioStack.Icecast.Xslt
import RadioStack.Liquidsoap.Noblank
import RadioStack.Liquidsoap.HttpSource
import RadioStack.Liquidsoap.Annotate
