import Avro.Container.Reader
import Avro.Container.Writer
import Avro.Engine.Basic
import Avro.Engine.Report
import Avro.Fingerprint
import Avro.Program.Stored
import Avro.Schema.Compatibility
import Avro.Sink.Script
import Avro.Sink.Trace
import Avro.Value.Display
import Avro.Proofs.Machine.Ending
import Avro.Proofs.Wire.Consumption
import Avro.Proofs.Plan.Evaluation
import Avro.Proofs.Plan.Linked
import Avro.Proofs.Plan.Simulation
import Avro.Proofs.Plan.Linking
import Avro.Proofs.Plan.Compilation
import Avro.Proofs.Schema.Shapes
import Avro.Proofs.Plan.Demands
import Avro.Proofs.Decoding.Basic
import Avro.Proofs.Decoding.Loops
import Avro.Proofs.Value.Entries
import Avro.Proofs.Value.Conformity
import Avro.Proofs.Decoding.Discarding
import Avro.Proofs.Decoding.Delivering
import Avro.Proofs.Decoding.Records
import Avro.Proofs.Decoding.Plans
import Avro.Proofs.Decoding.Programs
import Avro.Proofs.Value.Defaults
import Avro.Proofs.Decoding.Soundness
import Avro.Proofs.Schema.Json
import Avro.Proofs.Schema.Parsing
import Avro.Proofs.Plan.MethodNames
import Avro.Proofs.Decoding.TypeSafety
import Avro.Proofs.Wire.RoundTrip
import Avro.Proofs.Value.Encoding
import Avro.Proofs.Resolution.Basic
import Avro.Proofs.Resolution.Taking
import Avro.Proofs.Resolution.Skipping
import Avro.Proofs.Resolution.Scalars
import Avro.Proofs.Resolution.Written
import Avro.Proofs.Resolution.Programs
import Avro.Proofs.Plan.Requested
import Avro.Proofs.Plan.SameSchema
import Avro.Proofs.Resolution.SameSchema
import Avro.Proofs.Resolution.Defaults
import Avro.Proofs.Resolution.Methods
import Avro.Proofs.Wire.Locality
import Avro.Proofs.Wire.Chunks
import Avro.Proofs.Plan.Chunks
import Avro.Proofs.Plan.Locality
import Avro.Proofs.Plan.Operands
import Avro.Proofs.Plan.Layout
import Avro.Proofs.Decoding.Covering
import Avro.Proofs.Decoding.Entries
import Avro.Proofs.Resolution.Covering
import Avro.Proofs.Resolution.Items
import Avro.Proofs.Program.Termination
import Avro.Proofs.Program.Defects
import Avro.Proofs.Program.Skipping
import Avro.Proofs.Program.Chunks
import Avro.Proofs.Container.Batches
import Avro.Proofs.Container.Header
import Avro.Proofs.Container.Writing
import Avro.Proofs.Plan.Compatibility
import Avro.Proofs.Machine.Locality
import Avro.Proofs.Program.Records
import Avro.Proofs.Container.Opening
import Avro.Proofs.Container.Reading
import Avro.Proofs.Schema.CanonicalText
import Avro.Proofs.Schema.Reachability
import Avro.Proofs.Schema.CanonicalForm
import Avro.Proofs.Plan.Alike
import Avro.Proofs.Engine.Cache
import Avro.Proofs.Container.Capacity
import Avro.Proofs.Wire.Truncation
import Avro.Proofs.Machine.Logging
import Avro.Proofs.Machine.Truncation
import Avro.Proofs.Container.Partial
import Avro.Proofs.Container.Truncation
import Avro.Proofs.Wire.Spelling
import Avro.Proofs.Wire.Shortest
import Avro.Proofs.Decoding.Rewriting
import Avro.Proofs.Resolution.Canonical
import Avro.Proofs.Program.Storing
import Avro.Proofs.Program.Limits
import Avro.Proofs.Machine.Bracketing
import Avro.Proofs.Machine.Failing
import Avro.Proofs.Machine.Attribution
import Avro.Proofs.Machine.Words
import Avro.Proofs.Program.Brackets
import Avro.Proofs.Schema.Acceptance
import Avro.Proofs.Schema.Coherence
import Avro.Proofs.Schema.SameForm
import Avro.Proofs.Resolution.OwnBranch
import Avro.Proofs.Schema.Fixpoint
import Avro.Proofs.Sink.Populating
import Avro.Proofs.Resolution.Exactness
import Avro.Proofs.Plan.Feeds
import Avro.Proofs.Program.Feeding
import Avro.Proofs.Program.Switches
import Avro.Proofs.Container.Retrying
import Avro.Proofs.Plan.Views
import Avro.Proofs.Container.Recognizing
import Avro.Proofs.Value.Conversions
import Avro.Proofs.Value.Approximations
import Avro.Proofs.Value.Endless
import Avro.Proofs.Plan.Symbols
import Avro.Proofs.Plan.Soundness
import Avro.Proofs.Plan.Emission
import Avro.Proofs.Plan.Bounded
import Avro.Proofs.Schema.Fingerprints
import Avro.Proofs.Plan.Targets
import Avro.Proofs.Diagnostic.Pointing
