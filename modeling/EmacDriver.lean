import EmacDriver.Proofs.ChecksumSpec
import EmacDriver.Proofs.ReceiveBounds
import EmacDriver.Proofs.PingExchange
import EmacDriver.Proofs.Requests
import EmacDriver.Proofs.CleanExit
import EmacDriver.Proofs.RetryPolicy
import EmacDriver.Proofs.ReplyBounds
import EmacDriver.Proofs.EnvMap
import EmacDriver.Proofs.AllocSpec
import EmacDriver.Proofs.UdpDelivery
import EmacDriver.Proofs.RingInvariant
import EmacDriver.Proofs.MacRoundTrip
import EmacDriver.Proofs.DefragSafety
import EmacDriver.Proofs.Reassembly
import EmacDriver.Proofs.DescriptorCheck
import EmacDriver.Proofs.Elapsed
import EmacDriver.Proofs.ChecksumAlgebra
import EmacDriver.Proofs.Answers
import EmacDriver.Proofs.InitSearch
import EmacDriver.Proofs.HwaddrChoice
import EmacDriver.Proofs.IpRoundTrip
import EmacDriver.Proofs.NumberText
import EmacDriver.Proofs.WideText
import EmacDriver.Proofs.MiiRuns
import EmacDriver.Proofs.LinkMode
import EmacDriver.Proofs.LinkUpdate
import EmacDriver.Proofs.LinkParse
import EmacDriver.Proofs.Negotiation
import EmacDriver.Proofs.PhyRuns
import EmacDriver.Proofs.Blocks
import EmacDriver.Proofs.ListRuns
import EmacDriver.Proofs.MdioStack
import EmacDriver.Proofs.UdpChecksumSpec
import EmacDriver.Proofs.RandPeriod
import EmacDriver.Proofs.CrcDetection
import EmacDriver.Proofs.ReceiveOrder
import EmacDriver.Proofs.DmaLoss
import EmacDriver.Proofs.DmaBuffers
