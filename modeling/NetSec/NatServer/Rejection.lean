/-
Does a rejected request leave no trace?

A message is to be rejected (`Rejectable`) when its second field is missing or has the wrong length, when its first
field is not 3 characters, or when it is a command of 3 characters that is neither ADD nor BAN. `NoTrace` says of an
outcome that the process goes on, that both lists and all rules are as before, and that nothing was sent.

Only one of the rejections is one. The first check frees the message and goes on, where the second returns; and a
command that is neither ADD nor BAN goes past both branches to the reply, "ACK;(null);0" (`unknown_is_acknowledged`).

- `noTrace_iff`: an outcome leaves no trace exactly when handleRequest has returned from one of its checks;
- `rejection_iff`: a rejectable message leaves no trace exactly when it is empty, or passes the first check and fails
  the second (`ReturnsEarly`).
-/
import NetSec.NatServer.Injection

namespace NetSec.NatServer

open NetSec.Text

/-- the message fails a check of handleRequest, or names no command -/
def Rejectable (message : Text) : Prop :=
  badIp (fields ';' message).2 = true ∨ badCommand (fields ';' message).1 = true ∨
    ∃ command, (fields ';' message).1 = some command ∧ command.length = 3 ∧ command ≠ "ADD".toList ∧
      command ≠ "BAN".toList

/-- the state is as before, the process goes on, and nothing was sent -/
structure NoTrace (s : Server) (o : Outcome) : Prop where
  survives : o.survives = true
  reply : o.reply = none
  mappings : o.srv.mappingList = s.mappingList
  bans : o.srv.bannedList = s.bannedList
  filter : o.srv.fw.filter = s.fw.filter
  nat : o.srv.fw.nat = s.fw.nat
  inputPolicy : o.srv.fw.inputPolicy = s.fw.inputPolicy

/-- handleRequest returns before it looks at the command: at once, or from its second check -/
def ReturnsEarly (message : Text) : Prop :=
  message = [] ∨ (badIp (fields ';' message).2 = false ∧ badCommand (fields ';' message).1 = true)

instance (message : Text) : Decidable (ReturnsEarly message) := by unfold ReturnsEarly; infer_instance

/-- a message is dropped exactly when handleRequest has returned from a check -/
theorem dispatch_rejected_iff (freed : Freed) (message : Text) :
    dispatch freed message = .rejected ↔ ReturnsEarly message := by
  unfold ReturnsEarly
  by_cases hm : message = []
  · simp [dispatch, hm]
  rw [dispatch, if_neg hm, or_iff_right hm]
  rcases fields ';' message with ⟨command, ip⟩
  simp only [dispatchFields, checkRequest]
  cases hip : badIp ip with
  | true =>
    -- the first check has no `return`: some branch is taken
    simp only [if_true, Bool.true_eq_false, false_and, iff_false]
    cases command with
    | none => simp
    | some command => cases ip <;> simp only [Option.map_some, Option.map_none] <;> split_ifs <;> simp
  | false =>
    cases hcommand : badCommand command with
    | true => simp
    | false =>
      obtain ⟨c, rfl, -⟩ := badCommand_eq_false.1 hcommand
      simp only [Bool.false_eq_true, if_false, and_false, iff_false]
      cases ip <;> simp only [Option.map_some, Option.map_none] <;> split_ifs <;> simp

/-- **What leaves no trace.** Every branch that handleRequest takes after its checks sends a reply or ends the process.
-/
theorem noTrace_iff {e : RequestEnv} {message : Text} {s : Server} {o : Outcome}
    (h : handleRequest e message s = some o) : NoTrace s o ↔ dispatch e.freed message = .rejected := by
  have halive := survives_handleRequest h
  unfold handleRequest at h
  cases hd : dispatch e.freed message with
  | rejected =>
    simp only [hd, Option.some.injEq] at h
    subst h
    exact iff_of_true ⟨by simp [survives, hd], rfl, rfl, rfl, rfl, rfl, rfl⟩ rfl
  | crash =>
    refine iff_of_false ?_ (by simp)
    intro hn
    simpa [survives, hd] using halive.symm.trans hn.survives
  | banNull =>
    refine iff_of_false ?_ (by simp)
    intro hn
    simpa [survives, hd] using halive.symm.trans hn.survives
  | add ip =>
    simp only [hd, Option.map_eq_some_iff] at h
    obtain ⟨x, -, rfl⟩ := h
    refine iff_of_false ?_ (by simp)
    intro hn
    cases hn.reply
  | ban ip =>
    simp only [hd, Option.some.injEq] at h
    subst h
    refine iff_of_false ?_ (by simp)
    intro hn
    cases hn.reply
  | unknown =>
    simp only [hd, Option.some.injEq] at h
    subst h
    refine iff_of_false ?_ (by simp)
    intro hn
    cases hn.reply

/-- **A rejectable message leaves no trace exactly when handleRequest returns early.** For every message, in every
state, whatever freed memory holds. -/
theorem rejection_iff {e : RequestEnv} {message : Text} {s : Server} {o : Outcome}
    (h : handleRequest e message s = some o) :
    (Rejectable message → NoTrace s o) ↔ (Rejectable message → ReturnsEarly message) := by
  rw [noTrace_iff h, dispatch_rejected_iff]

/-- a message whose command has four characters -/
def longCommand : Text := "ADDX;10.4.11.17".toList

theorem rejection_iff_longCommand : (Rejectable longCommand → NoTrace bootServer ⟨bootServer, none, true⟩) ↔
    (Rejectable longCommand → ReturnsEarly longCommand) :=
  rejection_iff (show handleRequest plainEnv longCommand bootServer = some ⟨bootServer, none, true⟩ by decide)

def unknownCommand : Text := "XYZ;10.4.11.17".toList

/-- 'BAN' of an address that is too short -/
def shortAddress : Text := "BAN;1.2.3".toList

/-- **An unknown command and a short address are acknowledged.** Both get "ACK;(null);0", though both are to be
rejected. -/
theorem unknown_is_acknowledged : (Rejectable unknownCommand ∧ Rejectable shortAddress) ∧
    (∃ o, handleRequest plainEnv unknownCommand bootServer = some o ∧ o.reply = some "ACK;(null);0".toList ∧
      ¬ NoTrace bootServer o) ∧
    ∃ o, handleRequest plainEnv shortAddress bootServer = some o ∧ o.reply = some "ACK;(null);0".toList ∧
      ¬ NoTrace bootServer o := by
  refine ⟨⟨Or.inr (Or.inr ⟨"XYZ".toList, by decide⟩), Or.inl (by decide)⟩, ?_, ?_⟩
  · refine ⟨_, rfl, by decide, ?_⟩
    intro h
    cases h.reply
  · refine ⟨_, rfl, by decide, ?_⟩
    intro h
    cases h.reply

end NetSec.NatServer
