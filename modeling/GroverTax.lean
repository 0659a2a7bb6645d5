import GroverTax.Lib.Balance
import GroverTax.Lib.Digits
import GroverTax.Lib.Run
import GroverTax.Lib.Checked
import GroverTax.Lib.Text
import GroverTax.NativeAir.Limbs
import GroverTax.NativeAir.Air
import GroverTax.NativeAir.Relations
import GroverTax.NativeAir.Honest
import GroverTax.NativeAir.Soundness
import GroverTax.Kickmix.Syntax
import GroverTax.Kickmix.Sim
import GroverTax.Kickmix.Parse
import GroverTax.Kickmix.ParseSpec
import GroverTax.Kickmix.Safety
import GroverTax.Kickmix.Fuzz
import GroverTax.Kickmix.FiatShamir
import GroverTax.Kickmix.Resource
import GroverTax.Kickmix.Statement
import GroverTax.Cairo.Kickmix
import GroverTax.Cairo.KickmixSim
import GroverTax.Kickmix.Registers
import GroverTax.Kickmix.StatementSound
import GroverTax.Gtv1.Gate
import GroverTax.Lib.Bits
import GroverTax.Lib.Reversible
import GroverTax.Gtv1.Bytes
import GroverTax.Python.SimReference
import GroverTax.Cairo.Limbs
import GroverTax.Lib.BitStore
import GroverTax.Cairo.Gates
import GroverTax.Cairo.Io
import GroverTax.Gtv1.Format
import GroverTax.Cairo.Serialise
import GroverTax.Python.Serialise
import GroverTax.Sp1.Program
import GroverTax.Lib.Blake2s
import GroverTax.Cairo.Commit
import GroverTax.Lib.Chunks
import GroverTax.Cairo.Canonical
import GroverTax.Cairo.Program
import GroverTax.Cairo.Wide
import GroverTax.Parity.Guests
import GroverTax.Python.Fixture
import GroverTax.Parity.Iadd
import GroverTax.Gtv1.Adder
import GroverTax.Lib.LittleEndian
import GroverTax.NativeAir.Fixture
import GroverTax.Parity.NativeIadd
import GroverTax.Kickmix.StatementComplete
import GroverTax.Kickmix.Verdict
import GroverTax.Python.FiatShamir
import GroverTax.Parity.Cases
import GroverTax.Lib.Keccak
import GroverTax.Kickmix.Keccak
import GroverTax.Kickmix.Shake
import GroverTax.Python.Text
import GroverTax.Kickmix.Grammar
import GroverTax.Python.ResourceCert
import GroverTax.Parity.Resource
import GroverTax.Python.Kmx
import GroverTax.Parity.Kmx
import GroverTax.Kickmix.Documented
import GroverTax.NativeAir.MainTrace
import GroverTax.NativeAir.Completeness
import GroverTax.Lib.Sums
import GroverTax.NativeAir.Interaction
import GroverTax.NativeAir.ClaimedSum
import GroverTax.Python.KmxGates
import GroverTax.Cairo.Registers
import GroverTax.Kickmix.RegisterIo
import GroverTax.Python.Hex
import GroverTax.Python.Discards
import GroverTax.Python.Json
import GroverTax.Python.Analyze
import GroverTax.Python.DiscardCount
import GroverTax.Lib.Brackets
import GroverTax.Kickmix.Conditions
import GroverTax.Cairo.Conditions
import GroverTax.Parity.Conditions
import GroverTax.Kickmix.Value
import GroverTax.Kickmix.Uncompute
import GroverTax.Parity.Transpile
import GroverTax.Python.IaddFixture
import GroverTax.Python.Registers
import GroverTax.Python.Demanded
import GroverTax.Cairo.Padding
import GroverTax.Lib.Loop
import GroverTax.Cairo.ModAdd
import GroverTax.Cairo.LimbState
import GroverTax.Python.Secp256k1
import GroverTax.Python.Xof
import GroverTax.Lib.Pratt
import GroverTax.Lib.Roots
import GroverTax.Lib.Writes
import GroverTax.Python.RegisterCodec
import GroverTax.Python.KFold
import GroverTax.NativeAir.PackedWalk
import GroverTax.NativeAir.Multiplicity
import GroverTax.Kickmix.Trajectories
import GroverTax.Lib.Mixers
import GroverTax.Python.BuildErrors
import GroverTax.Lib.Raises
import GroverTax.Kickmix.Exhaustive
import GroverTax.Kickmix.Passing
import GroverTax.Kickmix.Coherent
import GroverTax.Lib.Kets
import GroverTax.Gtv1.Iadd
import GroverTax.Kickmix.Render
import GroverTax.Parity.Render
import GroverTax.Parity.Workload
import GroverTax.Python.BuildComplete
import GroverTax.Parity.WorkloadFixture
import GroverTax.Kickmix.AncillaAdder
import GroverTax.Parity.AncillaWorkload
import GroverTax.Kickmix.FuzzRun
import GroverTax.Kickmix.Cli
import GroverTax.Lib.LogUp
import GroverTax.NativeAir.Verifier
import GroverTax.Parity.Consumers
import GroverTax.Parity.Prove
import GroverTax.Python.GenFixtures
import GroverTax.Lib.Rejection
import GroverTax.Python.Curve
import GroverTax.Python.GenStream
import GroverTax.Sp1.Host
import GroverTax.Parity.Generated
import GroverTax.Python.Workload
