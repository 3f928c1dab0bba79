import MmixBackend.CommandLine.Directory
import MmixBackend.Main
import MmixBackend.Proofs.Machine.Blocks
import MmixBackend.Source.Walk
import MmixBackend.Types.Equality
import MmixBackend.Proofs.IR.Canonicalization
import MmixBackend.Proofs.Register.Execution
import MmixBackend.Proofs.Instr.LivePaths
import MmixBackend.Proofs.Register.Validity
import MmixBackend.Proofs.Register.RoundBound
import MmixBackend.Proofs.Assembly
import MmixBackend.Proofs.Source.Completeness
import MmixBackend.Proofs.Source.Numbering
import MmixBackend.Proofs.Text.Numeral
import MmixBackend.Proofs.Source.Resolution
import MmixBackend.Proofs.Instr.Refinement
import MmixBackend.Proofs.Compilation
import MmixBackend.Proofs.Source.StaticLinks
import MmixBackend.Proofs.Interleaving
import MmixBackend.Proofs.Safety
import MmixBackend.Proofs.ExactSizes
import MmixBackend.Proofs.Register.SlotExecution
import MmixBackend.Proofs.References
import MmixBackend.Proofs.FlatPrograms
import MmixBackend.Proofs.Register.Reduction
import MmixBackend.Proofs.Register.EntryLiveness
import MmixBackend.Proofs.Source.Structure
import MmixBackend.Proofs.Types.Equality
import MmixBackend.Proofs.Source.InfiniteTypes
import MmixBackend.Proofs.Source.Attribution
import MmixBackend.Proofs.Assembly.DataSection
import MmixBackend.Proofs.Assembly.StartUp
import MmixBackend.Proofs.Assembly.Templates
import MmixBackend.Proofs.Emission
import MmixBackend.Proofs.Placement
import MmixBackend.Proofs.Source.TypeTexts
import MmixBackend.Proofs.StaticData
import MmixBackend.Proofs.Source.BlockReplay
import MmixBackend.Proofs.Source.DeclarationOrder
import MmixBackend.Proofs.FlooredDivision
import MmixBackend.Proofs.ConstantLoads
import MmixBackend.Proofs.Machine.StepLimit
import MmixBackend.Proofs.Machine.StackDiscipline
import MmixBackend.Proofs.Source.Nesting
import MmixBackend.Proofs.Source.RecordLayout
import MmixBackend.Proofs.Source.DisciplinedCode
import MmixBackend.Proofs.LexicalStacks
import MmixBackend.Proofs.DisciplinedPrograms
import MmixBackend.Proofs.StaticScoping
import MmixBackend.Proofs.ConcurrentCompilation
