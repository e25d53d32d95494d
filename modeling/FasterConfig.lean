import FasterConfig.NatTable
import FasterConfig.Iptable
import FasterConfig.Runs
import FasterConfig.Application
import FasterConfig.DomainName
import FasterConfig.Resolv
import FasterConfig.DnsServer
import FasterConfig.DnsReply
import FasterConfig.DnsBounds
import FasterConfig.DnsHistory
import FasterConfig.Rfc1035
import FasterConfig.DnsWellFormed
import FasterConfig.HttpdContent
import FasterConfig.HttpdDispatch
import FasterConfig.HttpdOutput
import FasterConfig.HttpdRequest
import FasterConfig.HttpdPage
import FasterConfig.HttpdDecode
import FasterConfig.HttpdSanitise
import FasterConfig.HttpdReadRequest
import FasterConfig.IptableRestart
import FasterConfig.DnsQuery
import FasterConfig.DnsQuestions
import FasterConfig.DnsResponse
import FasterConfig.DnsRequest
import FasterConfig.Traced
import FasterConfig.DotStr
import FasterConfig.DnsReceive
import FasterConfig.DnsAgree
import FasterConfig.DnsContained
import FasterConfig.DnsLists
import FasterConfig.HttpdEscape
import FasterConfig.LineBlocks
import FasterConfig.HttpdResponse
import FasterConfig.HttpdFraming
import FasterConfig.HttpdNormalise
import FasterConfig.HttpdForm
import FasterConfig.HttpdUrlCodec
import FasterConfig.HttpdRedirect
import FasterConfig.HttpdHeaders
import FasterConfig.Cidr
import FasterConfig.HttpdAcl
import FasterConfig.NameWalk
import FasterConfig.HttpdTree
import FasterConfig.HttpdExpand
import FasterConfig.HttpdVarChain
import FasterConfig.HttpdReadLine
import FasterConfig.HttpdReceive
import FasterConfig.HttpdBase64
import FasterConfig.HttpdDangling
import FasterConfig.HttpdStale
import FasterConfig.Cycles
import FasterConfig.DnsDecompress
import FasterConfig.DnsPointers
import FasterConfig.DnsRoundTrip
import FasterConfig.DnsEncoders
import FasterConfig.ConfigFile
import FasterConfig.ConfigLines
import FasterConfig.ConfigFields
import FasterConfig.DnsQname
import FasterConfig.DnsFields
import FasterConfig.Captive
import FasterConfig.Descriptors
import FasterConfig.DnsSession
import FasterConfig.HttpdConnections
import FasterConfig.Resolver
import FasterConfig.ArpGet
import FasterConfig.HttpdClient
import FasterConfig.IptableFaults
import FasterConfig.IptableRefusals
import FasterConfig.RedirectLoop
import FasterConfig.Watch
import FasterConfig.CaptiveVisit
import FasterConfig.IptableTexts
import FasterConfig.DnsExchange
