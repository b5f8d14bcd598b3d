import ActorLang.Json.Read
import ActorLang.Main
import ActorLang.Proofs.Actor.Alone
import ActorLang.Proofs.Actor.Isolation
import ActorLang.Proofs.Control.Escapes
import ActorLang.Proofs.Control.FirstMatch
import ActorLang.Proofs.Control.JumpSafety
import ActorLang.Proofs.Integers
import ActorLang.Proofs.Lowering.FreeNames
import ActorLang.Proofs.Lowering.Refusal
import ActorLang.Proofs.Lowering.TargetNames
import ActorLang.Proofs.Machine.ArgumentCounts
import ActorLang.Proofs.Machine.Elision
import ActorLang.Proofs.Machine.Selection
import ActorLang.Proofs.Machine.Suspension
import ActorLang.Proofs.Pattern.RecordFields
import ActorLang.Proofs.Pattern.Stability
import ActorLang.Proofs.Store.CopiedEqualities
import ActorLang.Proofs.Store.Entailment
import ActorLang.Proofs.Store.Termination
import ActorLang.Proofs.Surface.Literals
import ActorLang.Proofs.Surface.Progress
import ActorLang.Proofs.Text.Marks
import ActorLang.Proofs.Token.Quoting
