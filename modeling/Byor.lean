import Byor.KeyValue.Response
import Byor.KeyValue.Ideal
import Byor.KeyValue.Lookups
import Byor.KeyValue.ReadOutcomes
import Byor.KeyValue.CliClient
import Byor.KeyValue.CliResponse
import Byor.KeyValue.Session
import Byor.EventLoop.EndToEnd
import Byor.EventLoop.Ideal
import Byor.PollServer.Ideal
import Byor.ProtocolParsing.Completion
import Byor.EventLoop.Reading
import Byor.Optimized.Lifetime
import Byor.Optimized.Delivery
import Byor.Optimized.Isolation
import Byor.Optimized.Backpressure
import Byor.Optimized.Progress
import Byor.Optimized.Segmentation
import Byor.Optimized.RoundTrip
import Byor.Optimized.Receive
import Byor.Optimized.Limits
import Byor.Optimized.KeyOrder
import Byor.Optimized.Registration
import Byor.Optimized.Teardown
import Byor.Optimized.Bounds
import Byor.Optimized.ResponseStream
import Byor.Optimized.SerializeSizes
import Byor.Optimized.DeserializeBounds
import Byor.Optimized.Cli
import Byor.Optimized.Pipelining
