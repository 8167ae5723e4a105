import MaliciousPsu.Lib.Edwards
import MaliciousPsu.Lib.PowMod
import MaliciousPsu.Bytes
import MaliciousPsu.Field
import MaliciousPsu.Rust
import MaliciousPsu.Scalar
import MaliciousPsu.Edwards
import MaliciousPsu.Aok.Commit
import MaliciousPsu.Aok.Known
import MaliciousPsu.Aok.Adapted
import MaliciousPsu.Aok.Honest
import MaliciousPsu.Aok.Completeness
import MaliciousPsu.Aok.Sizes
import MaliciousPsu.Aok.Ddh
import MaliciousPsu.Aok.Equations
import MaliciousPsu.Aok.ZeroKnowledge
import MaliciousPsu.Aok.Soundness
import MaliciousPsu.Lib.Elligator
import MaliciousPsu.Montgomery
import MaliciousPsu.Lib.Feistel
import MaliciousPsu.Mapping
import MaliciousPsu.Keys
import MaliciousPsu.Recover
import MaliciousPsu.Channel
import MaliciousPsu.Aok.Batching
import MaliciousPsu.Ladder
import MaliciousPsu.OneSided.Indicator
import MaliciousPsu.OneSided.SenderProof
import MaliciousPsu.TwoSided.Party
import MaliciousPsu.TwoSided.Protocol
import MaliciousPsu.TwoSided.Survival
import MaliciousPsu.TwoSided.Opening
import MaliciousPsu.TwoSided.Response
import MaliciousPsu.Bincode
import MaliciousPsu.TwoSided.Check
import MaliciousPsu.Aok.Permutation
import MaliciousPsu.Framing
import MaliciousPsu.TwoSided.Session
import MaliciousPsu.TwoSided.Correctness
import MaliciousPsu.TwoSided.Reflection
import MaliciousPsu.Lib.Views
import MaliciousPsu.Ot.ChouOrlandi
import MaliciousPsu.Ot.Consistency
import MaliciousPsu.OneSided.Session
import MaliciousPsu.Curve.LimbPoints
import MaliciousPsu.Curve.Points
