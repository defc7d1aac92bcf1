import Armlet.Main
import Armlet.CommandLine.Disk
import Armlet.Report.Log
import Armlet.Proofs.Lockstep
import Armlet.Proofs.Simulation
import Armlet.Proofs.TrapState
import Armlet.Proofs.Comparison
import Armlet.Proofs.StepLimit
import Armlet.Proofs.PlainMemory
import Armlet.Proofs.WordStore
import Armlet.Proofs.TwoPasses
import Armlet.Proofs.FirstFailure
import Armlet.Proofs.Relocation
import Armlet.Proofs.Reassembly
import Armlet.Proofs.ProgramCounter
import Armlet.Proofs.BranchReach
import Armlet.Proofs.Constants
import Armlet.Proofs.FaithfulText
import Armlet.Proofs.OverwideFields
import Armlet.Proofs.WordClasses
import Armlet.Proofs.TransferEffect
import Armlet.Proofs.ImmediateOperand
import Armlet.Proofs.WrittenLines
import Armlet.Proofs.DocumentedSyntax
import Armlet.Proofs.ExpressionGrammar
import Armlet.Proofs.PinEvents
import Armlet.Proofs.PoolGrowth
import Armlet.Proofs.CheckedAccess
import Armlet.Proofs.UsedWords
import Armlet.Proofs.SymbolListing
