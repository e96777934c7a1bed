import Klish.Lib.Runs
import Klish.Lib.EventLoop
import Klish.Lib.Framing
import Klish.Lib.Chains
import Klish.Lib.Forests
import Klish.Kentry
import Klish.Kscheme
import Klish.KschemePass
import Klish.KschemeRefs
import Klish.Kpargv
import Klish.Kpath
import Klish.ParseArg
import Klish.ParseLine
import Klish.ParseConservation
import Klish.ParseGrammar
import Klish.ParseCalls
import Klish.ParseLoops
import Klish.ParseSoundness
import Klish.Kexec
import Klish.KexecSpec
import Klish.KexecLog
import Klish.KexecFold
import Klish.KexecAbnormal
import Klish.KexecStreams
import Klish.RestoreLevel
import Klish.Nav
import Klish.NavPath
import Klish.ParseExec
import Klish.ParseFilter
import Klish.Ktp
import Klish.KtpdHint
import Klish.Ktpd
import Klish.KtpdFrame
import Klish.KtpdDispatch
import Klish.KtpdStep
import Klish.KtpdWired
import Klish.KtpdPollin
import Klish.KtpdStdin
import Klish.KtpChannel
import Klish.KtpServe
import Klish.KtpAnswer
import Klish.KtpdExit
import Klish.KtpdLoop
import Klish.KtpLink
import Klish.KschemeSettled
import Klish.KschemeLive
import Klish.KschemeAgree
import Klish.KschemeOrder
import Klish.KschemeCopy
import Klish.ParseProgress
import Klish.ParseTermination
import Klish.ParseRecursion
import Klish.ParseTurns
import Klish.ParseLockstep
import Klish.ParseCompletion
import Klish.ParseOffers
import Klish.Ischeme
import Klish.IschemeDeploy
import Klish.IschemeLegal
import Klish.IschemeRead
import Klish.IschemeRoundTrip
import Klish.Client
import Klish.ClientBatch
import Klish.ClientTruth
import Klish.KtpRetcode
import Klish.KtpdPath
import Klish.KtpdTells
import Klish.ClientHotkeys
import Klish.KtpHotkeys
import Klish.KexecSharing
import Klish.KexecLaunches
import Klish.KtpdPlugins
import Klish.Grabber
import Klish.GrabberForwards
import Klish.Hist
import Klish.HistReference
import Klish.Lib.Buffers
import Klish.Lib.Utf8
import Klish.Tinyrl
import Klish.TinyrlLine
import Klish.TinyrlText
import Klish.TinyrlBytes
import Klish.Lib.Screen
import Klish.Redisplay
import Klish.RedisplayUtf8
import Klish.RedisplayShows
import Klish.KlishKeys
import Klish.HistLinked
import Klish.KlishRecall
import Klish.KlishCompletion
import Klish.Lib.Utf8Sequences
import Klish.Utf8Helpers
import Klish.KtpFraming
import Klish.Lib.Environ
import Klish.ParsedArgs
import Klish.ScriptEnv
import Klish.LuaPars
import Klish.KschemeLog
import Klish.Lib.Pieces
import Klish.PipeSplit
import Klish.PtypeCommand
import Klish.KtpdBacklog
import Klish.XmlLoad
import Klish.Lib.PathMaps
import Klish.XmlSteps
import Klish.XmlLegal
import Klish.XmlGrows
import Klish.XmlTyped
import Klish.XmlMerge
import Klish.Kexpat
import Klish.KschemeMemory
import Klish.KschemeFree
import Klish.Klishd
import Klish.KexpatRelease
