import EmLang.Ast.Walk
import EmLang.Main
import EmLang.Proofs.CallBoundaries
import EmLang.Proofs.CallTargets
import EmLang.Proofs.ControlFlow
import EmLang.Proofs.Convergence
import EmLang.Proofs.DeclarationOrder
import EmLang.Proofs.Excerpts
import EmLang.Proofs.FrameWords
import EmLang.Proofs.Independence
import EmLang.Proofs.MachineForms
import EmLang.Proofs.MissingReturns
import EmLang.Proofs.Reprinting
import EmLang.Proofs.StackLevel
import EmLang.Proofs.WellFormed
