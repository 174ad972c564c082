import MipsAssembler.CommandLine.Directory
import MipsAssembler.Machine
import MipsAssembler.Main
import MipsAssembler.Proofs.BranchTarget
import MipsAssembler.Proofs.Continuation
import MipsAssembler.Proofs.LabelLines
import MipsAssembler.Proofs.LineGrammar
import MipsAssembler.Proofs.PossibleErrors
import MipsAssembler.Proofs.Provenance
import MipsAssembler.Proofs.PseudoEffects
import MipsAssembler.Proofs.RefusedLines
import MipsAssembler.Proofs.Relocations
import MipsAssembler.Proofs.SeparateAssembly
import MipsAssembler.Proofs.ExpansionForm
import MipsAssembler.Proofs.ExpandedText
import MipsAssembler.Proofs.Reassembly
import MipsAssembler.Proofs.Renaming
import MipsAssembler.Proofs.TableHistory
import MipsAssembler.Proofs.Listing
import MipsAssembler.Proofs.CommandEffects
import MipsAssembler.Proofs.FirstFault
import MipsAssembler.Proofs.LinewiseReading
import MipsAssembler.Proofs.WordPacking
import MipsAssembler.Proofs.GuardedRuns
