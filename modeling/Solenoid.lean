import Solenoid.Lib.ReadThrough
import Solenoid.Proxy.Cache
import Solenoid.Proxy.Server
import Solenoid.Proxy.Transparency
import Solenoid.Storage
import Solenoid.Balances
import Solenoid.Value
import Solenoid.Replies
import Solenoid.Decoding
import Solenoid.Overlay
import Solenoid.Settlement
import Solenoid.Turns
import Solenoid.Carries
import Solenoid.Termination
import Solenoid.Contexts
import Solenoid.Jumps
import Solenoid.Access
import Solenoid.Metering
import Solenoid.Originals
import Solenoid.Opening
import Solenoid.Outcomes
import Solenoid.Calling
import Solenoid.CallGas
import Solenoid.PrecompileCalls
import Solenoid.CreationGas
import Solenoid.CreationLaws
import Solenoid.Arithmetic
import Solenoid.Ranges
import Solenoid.Deployments
import Solenoid.Bookkeeping
import Solenoid.Coinbase
import Solenoid.Nonces
import Solenoid.Destruction
import Solenoid.Memory
import Solenoid.Lib.Rlp
import Solenoid.Numbers
import Solenoid.Preimages
import Solenoid.Inputs
import Solenoid.Modexp
import Solenoid.Curves
import Solenoid.Lib.Blake2
import Solenoid.Blake2f
import Solenoid.Tracing
import Solenoid.Flags
import Solenoid.TraceGas
import Solenoid.BalanceEvents
import Solenoid.Proxy.Retry
import Solenoid.BlobPrice
import Solenoid.Lib.Numeral
import Solenoid.Hex
import Solenoid.Proxy.Keys
import Solenoid.Proxy.RoundTrip
import Solenoid.Frames
import Solenoid.Boundaries
import Solenoid.Limits
import Solenoid.CodeHashes
import Solenoid.Reasons
import Solenoid.Lib.Interleaving
import Solenoid.Proxy.Concurrency
import Solenoid.Proxy.Replay
import Solenoid.Eth
import Solenoid.Proxy.Client
import Solenoid.Tallies
import Solenoid.Outputs
import Solenoid.Reversals
import Solenoid.Statics
import Solenoid.Integers
import Solenoid.Contents
import Solenoid.Walks
