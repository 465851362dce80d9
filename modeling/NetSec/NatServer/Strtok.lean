/-
Do the requests of different connections mix?

ISO C gives `strtok` one save pointer for the whole process. `strtokStep` are the handlers inside handleRequest: a
message is read (`recv`), `strtok(message, ";")` gives the command and moves the save pointer (`first`),
`strtok(NULL, ";")` goes on from wherever the save pointer then is (`second`), and the message is freed (`finish`).
The save pointer can point into a message that has been freed; what it reads as there is arbitrary (`freed`).

`OwnFields`: the command and address a handler acts on are the two fields of its own message. It fails
(`fields_of_another_connection`).

Which calls come between which is a matter of the order of steps alone; `turnStep` is that order, without messages.
- `own_fields_iff`: under an order of steps every handler gets its own fields, whatever the messages are, exactly when
  no handler's two calls have a call of another handler between them (`CallClear`);
- `dispatch_ownFields`: then each handler does what `dispatch` says of its own message.
-/
import NetSec.NatServer.Framing

namespace NetSec.NatServer

open NetSec.Run NetSec.Text

/-! ## Model -/

/-- what a read can leave in the buffer for handleRequest -/
structure Message where
  text : Text
  nonempty : text ≠ []
  fits : text.length ≤ maxRequestMessageSize - 1
  noNul : nul ∉ text

/-- a handler inside handleRequest; `n` numbers its message -/
inductive StrtokPc where
  | idle
  | received (n : ℕ) (message : Text)
  | first (n : ℕ) (message : Text) (command : Option Text)
  /-- the handler acts on these -/
  | split (n : ℕ) (message : Text) (command ip : Option Text)
deriving DecidableEq, Repr

structure Strtok where
  handler : ℕ → StrtokPc
  /-- the save pointer: the message it points into, and the text from there on -/
  save : Option (ℕ × Text)
  /-- how many messages there have been, and those not freed -/
  received : ℕ
  live : List ℕ
  /-- how many calls of `strtok` there have been -/
  calls : ℕ

inductive StrtokOp where
  | recv (i : ℕ)
  | first (i : ℕ)
  | second (i : ℕ)
  | finish (i : ℕ)
deriving DecidableEq, Repr

/-- one step of handler `i`; `messages n` is the nth message, `freed k` what the kth call would read from freed
memory -/
def strtokStep (messages : ℕ → Message) (freed : ℕ → Text) (s : Strtok) : StrtokOp → Option Strtok
  | .recv i =>
    match s.handler i with
    | .idle => some { s with
        handler := Function.update s.handler i (.received s.received (messages s.received).text)
        received := s.received + 1
        live := s.received :: s.live }
    | _ => none
  | .first i =>
    match s.handler i with
    | .received n message =>
      let (command, rest) := strtokFrom ';' message
      some { s with
        handler := Function.update s.handler i (.first n message command)
        save := some (n, rest)
        calls := s.calls + 1 }
    | _ => none
  | .second i =>
    match s.handler i, s.save with
    | .first n message command, some (m, rest) =>
      let text := if m ∈ s.live then rest else freed s.calls
      let (ip, rest) := strtokFrom ';' text
      some { s with
        handler := Function.update s.handler i (.split n message command ip)
        save := some (m, rest)
        calls := s.calls + 1 }
    | _, _ => none
  | .finish i =>
    match s.handler i with
    | .split n _ _ _ => some { s with handler := Function.update s.handler i .idle, live := s.live.erase n }
    | _ => none

def strtokStart : Strtok := ⟨fun _ => .idle, none, 0, [], 0⟩

/-- a handler acts on the two fields of its own message -/
def OwnFields (s : Strtok) : Prop :=
  ∀ i n message command ip, s.handler i = .split n message command ip → (command, ip) = fields ';' message

/-! ## The order of steps -/

/-- how far a handler is with message `n` -/
inductive Phase where
  | idle
  | received (n : ℕ)
  | first (n : ℕ)
  | split (n : ℕ)
deriving DecidableEq, Repr

structure Turns where
  phase : ℕ → Phase
  received : ℕ
  /-- who made the last call of `strtok` -/
  lastCaller : Option ℕ

def turnStep (t : Turns) : StrtokOp → Option Turns
  | .recv i =>
    match t.phase i with
    | .idle => some { t with
        phase := Function.update t.phase i (.received t.received)
        received := t.received + 1 }
    | _ => none
  | .first i =>
    match t.phase i with
    | .received n => some { t with phase := Function.update t.phase i (.first n), lastCaller := some i }
    | _ => none
  | .second i =>
    match t.phase i with
    | .first n => some { t with phase := Function.update t.phase i (.split n), lastCaller := some i }
    | _ => none
  | .finish i =>
    match t.phase i with
    | .split _ => some { t with phase := Function.update t.phase i .idle }
    | _ => none

def turnStart : Turns := ⟨fun _ => .idle, 0, none⟩

/-- a handler's second call comes right after its own first one, as far as calls of `strtok` go -/
def CallClear (t : Turns) : StrtokOp → Prop
  | .second i => t.lastCaller = some i
  | _ => True

/-! ## What each step does -/

theorem strtokStep_recv {messages : ℕ → Message} {freed : ℕ → Text} {s s' : Strtok} {i : ℕ}
    (h : strtokStep messages freed s (.recv i) = some s') :
    s.handler i = .idle ∧ s' = { s with
      handler := Function.update s.handler i (.received s.received (messages s.received).text)
      received := s.received + 1
      live := s.received :: s.live } := by
  simp only [strtokStep] at h
  split at h
  · rename_i hi
    exact ⟨hi, (Option.some.inj h).symm⟩
  · cases h

theorem strtokStep_first {messages : ℕ → Message} {freed : ℕ → Text} {s s' : Strtok} {i : ℕ}
    (h : strtokStep messages freed s (.first i) = some s') :
    ∃ n message, s.handler i = .received n message ∧ s' = { s with
      handler := Function.update s.handler i (.first n message (strtokFrom ';' message).1)
      save := some (n, (strtokFrom ';' message).2)
      calls := s.calls + 1 } := by
  simp only [strtokStep] at h
  split at h
  · rename_i n message hi
    exact ⟨n, message, hi, (Option.some.inj h).symm⟩
  · cases h

theorem strtokStep_second {messages : ℕ → Message} {freed : ℕ → Text} {s s' : Strtok} {i : ℕ}
    (h : strtokStep messages freed s (.second i) = some s') :
    ∃ n message command m rest, s.handler i = .first n message command ∧ s.save = some (m, rest) ∧
      s' = { s with
        handler := Function.update s.handler i
          (.split n message command (strtokFrom ';' (if m ∈ s.live then rest else freed s.calls)).1)
        save := some (m, (strtokFrom ';' (if m ∈ s.live then rest else freed s.calls)).2)
        calls := s.calls + 1 } := by
  simp only [strtokStep] at h
  split at h
  · rename_i n message command m rest hi hsave
    exact ⟨n, message, command, m, rest, hi, hsave, (Option.some.inj h).symm⟩
  · cases h

theorem strtokStep_finish {messages : ℕ → Message} {freed : ℕ → Text} {s s' : Strtok} {i : ℕ}
    (h : strtokStep messages freed s (.finish i) = some s') :
    ∃ n message command ip, s.handler i = .split n message command ip ∧
      s' = { s with handler := Function.update s.handler i .idle, live := s.live.erase n } := by
  simp only [strtokStep] at h
  split at h
  · rename_i n message command ip hi
    exact ⟨n, message, command, ip, hi, (Option.some.inj h).symm⟩
  · cases h

/-! ## Messages and phases -/

/-- the message a handler has, with its number -/
def StrtokPc.message : StrtokPc → Option (ℕ × Text)
  | .idle => none
  | .received n message => some (n, message)
  | .first n message _ => some (n, message)
  | .split n message _ _ => some (n, message)

def StrtokPc.phase : StrtokPc → Phase
  | .idle => .idle
  | .received n _ => .received n
  | .first n _ _ => .first n
  | .split n _ _ _ => .split n

/-- messages are numbered in order, each belongs to one handler, and none is freed while a handler has it; a first token
is the first field -/
structure StrtokInv (messages : ℕ → Message) (s : Strtok) : Prop where
  numbered : ∀ i n m, (s.handler i).message = some (n, m) → n < s.received ∧ m = (messages n).text
  live : ∀ i n m, (s.handler i).message = some (n, m) → n ∈ s.live
  distinct : ∀ i j n m m', (s.handler i).message = some (n, m) → (s.handler j).message = some (n, m') → i = j
  command : ∀ i n m c, s.handler i = .first n m c → c = (strtokFrom ';' m).1
  saved : ∀ i n m c, s.handler i = .first n m c → s.save ≠ none

theorem strtokInv_start (messages : ℕ → Message) : StrtokInv messages strtokStart := by
  constructor <;> simp [strtokStart, StrtokPc.message]

/-- a handler that goes on with its message -/
theorem message_update {h : ℕ → StrtokPc} {i : ℕ} (pc : StrtokPc) (hsame : pc.message = (h i).message) (j : ℕ) :
    (Function.update h i pc j).message = (h j).message := by
  by_cases hj : j = i
  · subst hj; rw [Function.update_self, hsame]
  · rw [Function.update_of_ne hj]

theorem update_eq_first {h : ℕ → StrtokPc} {i j n : ℕ} {pc : StrtokPc} {m : Text} {c : Option Text}
    (hpc : ∀ n m c, pc ≠ .first n m c) (hj : Function.update h i pc j = .first n m c) : h j = .first n m c := by
  by_cases hji : j = i
  · subst hji
    rw [Function.update_self] at hj
    exact absurd hj (hpc n m c)
  · rwa [Function.update_of_ne hji] at hj

/-- a call of `strtok` by a handler that goes on with its message -/
theorem strtokInv_call {messages : ℕ → Message} {s : Strtok} (h : StrtokInv messages s) {i : ℕ} {pc : StrtokPc}
    (hsame : pc.message = (s.handler i).message) (hfirst : ∀ n m c, pc = .first n m c → c = (strtokFrom ';' m).1)
    (save : ℕ × Text) (calls : ℕ) :
    StrtokInv messages { s with
      handler := Function.update s.handler i pc
      save := some save
      calls := calls } := by
  have hmessage := message_update pc hsame
  refine ⟨?_, ?_, ?_, ?_, ?_⟩
  · intro j k m hm
    exact h.numbered j k m (hmessage j ▸ hm)
  · intro j k m hm
    exact h.live j k m (hmessage j ▸ hm)
  · intro j k n m m' hm hm'
    exact h.distinct j k n m m' (hmessage j ▸ hm) (hmessage k ▸ hm')
  · intro j n m c hj
    by_cases hji : j = i
    · subst hji
      simp only [Function.update_self] at hj
      exact hfirst n m c hj
    · simp only [Function.update_of_ne hji] at hj
      exact h.command j n m c hj
  · intro j n m c _
    simp

theorem strtokInv_step {messages : ℕ → Message} {freed : ℕ → Text} {s s' : Strtok} {o : StrtokOp}
    (h : StrtokInv messages s) (hs : strtokStep messages freed s o = some s') : StrtokInv messages s' := by
  cases o with
  | recv i =>
    obtain ⟨hi, rfl⟩ := strtokStep_recv hs
    have hcase : ∀ j n m, (Function.update s.handler i (.received s.received (messages s.received).text) j).message =
        some (n, m) → (j = i ∧ n = s.received ∧ m = (messages n).text) ∨ (s.handler j).message = some (n, m) := by
      intro j n m hm
      by_cases hj : j = i
      · subst hj
        rw [Function.update_self, StrtokPc.message, Option.some.injEq, Prod.mk.injEq] at hm
        obtain ⟨rfl, rfl⟩ := hm
        exact Or.inl ⟨rfl, rfl, rfl⟩
      · rw [Function.update_of_ne hj] at hm
        exact Or.inr hm
    refine ⟨?_, ?_, ?_, ?_, ?_⟩
    · intro j n m hm
      rcases hcase j n m hm with ⟨-, hn, hm0⟩ | hold
      · exact ⟨hn ▸ Nat.lt_succ_self _, hm0⟩
      · exact ⟨Nat.lt_succ_of_lt (h.numbered j n m hold).1, (h.numbered j n m hold).2⟩
    · intro j n m hm
      rcases hcase j n m hm with ⟨-, hn, -⟩ | hold
      · exact hn ▸ List.mem_cons_self
      · exact List.mem_cons_of_mem _ (h.live j n m hold)
    · intro j k n m m' hm hm'
      rcases hcase j n m hm with ⟨hj, hn, -⟩ | hold <;> rcases hcase k n m' hm' with ⟨hk, hn', -⟩ | hold'
      · exact hj.trans hk.symm
      · exact absurd (h.numbered k n m' hold').1 (by omega)
      · exact absurd (h.numbered j n m hold).1 (by omega)
      · exact h.distinct j k n m m' hold hold'
    · intro j n m c hj
      exact h.command j n m c (update_eq_first (by simp) hj)
    · intro j n m c hj
      exact h.saved j n m c (update_eq_first (by simp) hj)
  | first i =>
    obtain ⟨n, message, hi, rfl⟩ := strtokStep_first hs
    refine strtokInv_call h (by rw [hi]; rfl) ?_ _ _
    intro k m c hpc
    simp only [StrtokPc.first.injEq] at hpc
    obtain ⟨rfl, rfl, rfl⟩ := hpc
    rfl
  | second i =>
    obtain ⟨n, message, command, k, rest, hi, hsave, rfl⟩ := strtokStep_second hs
    exact strtokInv_call h (by rw [hi]; rfl) (by simp) _ _
  | finish i =>
    obtain ⟨n, message, command, ip, hi, rfl⟩ := strtokStep_finish hs
    have hcase : ∀ j k m, (Function.update s.handler i .idle j).message = some (k, m) →
        j ≠ i ∧ (s.handler j).message = some (k, m) := by
      intro j k m hm
      by_cases hj : j = i
      · subst hj
        rw [Function.update_self] at hm
        cases hm
      · rw [Function.update_of_ne hj] at hm
        exact ⟨hj, hm⟩
    refine ⟨?_, ?_, ?_, ?_, ?_⟩
    · intro j k m hm
      exact h.numbered j k m (hcase j k m hm).2
    · -- the freed message is not the one another handler has
      intro j k m hm
      obtain ⟨hj, hold⟩ := hcase j k m hm
      have hne : k ≠ n := by
        rintro rfl
        exact hj (h.distinct j i k m message hold (by rw [hi]; rfl))
      exact (List.mem_erase_of_ne hne).2 (h.live j k m hold)
    · intro j k l m m' hm hm'
      exact h.distinct j k l m m' (hcase j l m hm).2 (hcase k l m' hm').2
    · intro j k m c hj
      exact h.command j k m c (update_eq_first (by simp) hj)
    · intro j k m c hj
      exact h.saved j k m c (update_eq_first (by simp) hj)

/-! ## Handlers and their order of steps -/

/-- the handlers are where the order of steps says -/
structure Follows (s : Strtok) (t : Turns) : Prop where
  phase : ∀ i, t.phase i = (s.handler i).phase
  received : t.received = s.received

theorem phase_update {φ : ℕ → Phase} {h : ℕ → StrtokPc} (hφ : ∀ i, φ i = (h i).phase) (i : ℕ) (pc : StrtokPc) (j : ℕ) :
    Function.update φ i pc.phase j = (Function.update h i pc j).phase := by
  by_cases hj : j = i
  · subst hj; rw [Function.update_self, Function.update_self]
  · rw [Function.update_of_ne hj, Function.update_of_ne hj, hφ]

variable {messages : ℕ → Message} {freed : ℕ → Text} {s s' : Strtok} {t t' : Turns} {o : StrtokOp}

theorem turnStep_recv {i : ℕ} (h : t.phase i = .idle) : turnStep t (.recv i) = some { t with
    phase := Function.update t.phase i (.received t.received)
    received := t.received + 1 } := by
  simp only [turnStep, h]

theorem turnStep_first {i n : ℕ} (h : t.phase i = .received n) :
    turnStep t (.first i) = some { t with phase := Function.update t.phase i (.first n), lastCaller := some i } := by
  simp only [turnStep, h]

theorem turnStep_second {i n : ℕ} (h : t.phase i = .first n) :
    turnStep t (.second i) = some { t with phase := Function.update t.phase i (.split n), lastCaller := some i } := by
  simp only [turnStep, h]

theorem turnStep_finish {i n : ℕ} (h : t.phase i = .split n) :
    turnStep t (.finish i) = some { t with phase := Function.update t.phase i .idle } := by
  simp only [turnStep, h]

/-- the phase of a handler, from what it does -/
theorem Follows.of_handler (hf : Follows s t) {i : ℕ} {pc : StrtokPc} (h : s.handler i = pc) :
    t.phase i = pc.phase := by
  rw [hf.phase, h]

theorem follows_step (hf : Follows s t) (hs : strtokStep messages freed s o = some s') :
    ∃ t', turnStep t o = some t' ∧ Follows s' t' := by
  cases o with
  | recv i =>
    obtain ⟨hi, rfl⟩ := strtokStep_recv hs
    refine ⟨_, turnStep_recv (hf.of_handler hi), ?_, congrArg (· + 1) hf.received⟩
    intro j
    have hj := phase_update hf.phase i (.received s.received (messages s.received).text) j
    rw [← hj, StrtokPc.phase, hf.received]
  | first i =>
    obtain ⟨n, message, hi, rfl⟩ := strtokStep_first hs
    exact ⟨_, turnStep_first (hf.of_handler hi), phase_update hf.phase i (.first n message _), hf.received⟩
  | second i =>
    obtain ⟨n, message, command, k, rest, hi, -, rfl⟩ := strtokStep_second hs
    exact ⟨_, turnStep_second (hf.of_handler hi), phase_update hf.phase i (.split n message command _), hf.received⟩
  | finish i =>
    obtain ⟨n, message, command, ip, hi, rfl⟩ := strtokStep_finish hs
    exact ⟨_, turnStep_finish (hf.of_handler hi), phase_update hf.phase i .idle, hf.received⟩

/-- a step in order can be made, whatever the messages are -/
theorem step_of_turn (freed : ℕ → Text) (hi : StrtokInv messages s) (hf : Follows s t) (ht : turnStep t o = some t') :
    ∃ s', strtokStep messages freed s o = some s' ∧ Follows s' t' := by
  have henabled : ∃ s', strtokStep messages freed s o = some s' := by
    cases o with
    | recv i =>
      cases hpc : s.handler i with
      | idle => exact ⟨_, by simp only [strtokStep, hpc]; rfl⟩
      | _ => simp [turnStep, hf.phase, hpc, StrtokPc.phase] at ht
    | first i =>
      cases hpc : s.handler i with
      | received n message => exact ⟨_, by simp only [strtokStep, hpc]; rfl⟩
      | _ => simp [turnStep, hf.phase, hpc, StrtokPc.phase] at ht
    | second i =>
      cases hpc : s.handler i with
      | first n message command =>
        obtain ⟨⟨k, rest⟩, hsave⟩ := Option.ne_none_iff_exists'.1 (hi.saved i n message command hpc)
        exact ⟨_, by simp only [strtokStep, hpc, hsave]; rfl⟩
      | _ => simp [turnStep, hf.phase, hpc, StrtokPc.phase] at ht
    | finish i =>
      cases hpc : s.handler i with
      | split n message command ip => exact ⟨_, by simp only [strtokStep, hpc]; rfl⟩
      | _ => simp [turnStep, hf.phase, hpc, StrtokPc.phase] at ht
  obtain ⟨s', hs⟩ := henabled
  obtain ⟨t'', ht'', hf'⟩ := follows_step hf hs
  rw [ht, Option.some.injEq] at ht''
  exact ⟨s', hs, ht'' ▸ hf'⟩

/-! ## Clear calls are enough -/

/-- the last caller, between its two calls, finds the save pointer where it left it -/
structure OwnTurn (messages : ℕ → Message) (s : Strtok) (t : Turns) : Prop where
  inv : StrtokInv messages s
  follows : Follows s t
  turn : ∀ i n m c, s.handler i = .first n m c → t.lastCaller = some i → s.save = some (n, (strtokFrom ';' m).2)
  own : OwnFields s

theorem ownTurn_start (messages : ℕ → Message) : OwnTurn messages strtokStart turnStart := by
  refine ⟨strtokInv_start messages, ⟨fun _ => rfl, rfl⟩, ?_, ?_⟩
  · simp [strtokStart]
  · simp [OwnFields, strtokStart]

/-- a handler that is not splitting its message leaves the others' fields as they are -/
theorem ownFields_update {i : ℕ} {pc : StrtokPc} (h : OwnFields s) (hpc : ∀ n m c ip, pc ≠ .split n m c ip) {j n : ℕ}
    {m : Text} {c ip : Option Text} (hj : Function.update s.handler i pc j = .split n m c ip) :
    (c, ip) = fields ';' m := by
  by_cases hji : j = i
  · subst hji
    rw [Function.update_self] at hj
    exact absurd hj (hpc n m c ip)
  · rw [Function.update_of_ne hji] at hj
    exact h j n m c ip hj

theorem ownTurn_step (h : OwnTurn messages s t) (hs : strtokStep messages freed s o = some s')
    (ht : turnStep t o = some t') (hf : Follows s' t') (hc : CallClear t o) : OwnTurn messages s' t' := by
  have hinv := strtokInv_step h.inv hs
  cases o with
  | recv i =>
    obtain ⟨hi, rfl⟩ := strtokStep_recv hs
    rw [turnStep_recv (h.follows.of_handler hi), Option.some.injEq] at ht
    subst ht
    refine ⟨hinv, hf, ?_, ?_⟩
    · intro j n m c hj hlast
      exact h.turn j n m c (update_eq_first (by simp) hj) hlast
    · intro j n m c ip hj
      exact ownFields_update h.own (by simp) hj
  | first i =>
    obtain ⟨n, message, hi, rfl⟩ := strtokStep_first hs
    rw [turnStep_first (h.follows.of_handler hi), Option.some.injEq] at ht
    subst ht
    refine ⟨hinv, hf, ?_, ?_⟩
    · intro j k m c hj hlast
      obtain rfl : i = j := Option.some.inj hlast
      simp only [Function.update_self, StrtokPc.first.injEq] at hj
      obtain ⟨rfl, rfl, -⟩ := hj
      rfl
    · intro j k m c ip hj
      exact ownFields_update h.own (by simp) hj
  | second i =>
    obtain ⟨n, message, command, k, rest, hi, hsave, rfl⟩ := strtokStep_second hs
    rw [turnStep_second (h.follows.of_handler hi), Option.some.injEq] at ht
    subst ht
    refine ⟨hinv, hf, ?_, ?_⟩
    · intro j l m c hj hlast
      obtain rfl : i = j := Option.some.inj hlast
      simp at hj
    · intro j l m c ip hj
      by_cases hji : j = i
      · subst hji
        simp only [Function.update_self, StrtokPc.split.injEq] at hj
        obtain ⟨rfl, rfl, rfl, rfl⟩ := hj
        -- the save pointer is in the handler's own message, which is not freed
        have hown := hsave.symm.trans (h.turn j n message command hi hc)
        simp only [Option.some.injEq, Prod.mk.injEq] at hown
        obtain ⟨rfl, rfl⟩ := hown
        rw [if_pos (h.inv.live j k message (by rw [hi]; rfl)), h.inv.command j k message command hi]
        rfl
      · simp only [Function.update_of_ne hji] at hj
        exact h.own j l m c ip hj
  | finish i =>
    obtain ⟨n, message, command, ip, hi, rfl⟩ := strtokStep_finish hs
    rw [turnStep_finish (h.follows.of_handler hi), Option.some.injEq] at ht
    subst ht
    refine ⟨hinv, hf, ?_, ?_⟩
    · intro j n m c hj hlast
      exact h.turn j n m c (update_eq_first (by simp) hj) hlast
    · intro j n m c ip hj
      exact ownFields_update h.own (by simp) hj

/-! ## Clear calls are needed -/

def addressA : Text := "10.4.11.1".toList
def addressB : Text := "10.4.11.2".toList

/-- an ADD for the first address, and one for the second -/
def messageA : Message := ⟨"ADD;".toList ++ addressA, by decide, by decide, by decide⟩
def messageB : Message := ⟨"ADD;".toList ++ addressB, by decide, by decide, by decide⟩

/-- message `b` is for the first address, all others for the second -/
def marked (b n : ℕ) : Message := if n = b then messageA else messageB

def markedAddress (b n : ℕ) : Text := if n = b then addressA else addressB

theorem fields_marked (b n : ℕ) :
    strtokFrom ';' (marked b n).text = (some "ADD".toList, markedAddress b n) ∧
      strtokFrom ';' (markedAddress b n) = (some (markedAddress b n), []) := by
  unfold marked markedAddress
  split_ifs <;> decide

/-- nothing is left at the save pointer, or the second field of the message it points into; in the latter case the
handler of that message made the last call -/
structure MixTurn (b : ℕ) (s : Strtok) (t : Turns) : Prop where
  inv : StrtokInv (marked b) s
  follows : Follows s t
  save : ∀ k rest, s.save = some (k, rest) → rest = [] ∨
    (rest = markedAddress b k ∧ ∀ i m c, s.handler i = .first k m c → t.lastCaller = some i)

theorem mixTurn_start (b : ℕ) : MixTurn b strtokStart turnStart :=
  ⟨strtokInv_start _, ⟨fun _ => rfl, rfl⟩, by simp [strtokStart]⟩

/-- the handler of message `b` makes its second call in turn -/
def TurnOf (b : ℕ) (t : Turns) : StrtokOp → Prop
  | .second i => t.phase i = .first b → t.lastCaller = some i
  | _ => True

theorem mixTurn_second {b i : ℕ} (h : MixTurn b s t) (hs : strtokStep (marked b) (fun _ => []) s (.second i) = some s')
    (ht : turnStep t (.second i) = some t') (hf : Follows s' t') (hown : OwnFields s') :
    TurnOf b t (.second i) ∧ MixTurn b s' t' := by
  have hinv := strtokInv_step h.inv hs
  obtain ⟨n, message, command, k, rest, hi, hsave, rfl⟩ := strtokStep_second hs
  rw [turnStep_second (h.follows.of_handler hi), Option.some.injEq] at ht
  subst ht
  -- what the call reads: nothing, or the second field of message k
  have hread : (if k ∈ s.live then rest else []) = [] ∨ ((if k ∈ s.live then rest else []) = markedAddress b k ∧
      ∀ i m c, s.handler i = .first k m c → t.lastCaller = some i) := by
    split_ifs
    · exact h.save k rest hsave
    · exact Or.inl rfl
  have hleft : (strtokFrom ';' (if k ∈ s.live then rest else [])).2 = [] := by
    rcases hread with he | ⟨he, -⟩ <;> rw [he]
    · rfl
    · rw [(fields_marked b k).2]
  refine ⟨?_, ?_⟩
  · intro hphase
    rw [h.follows.of_handler hi, StrtokPc.phase, Phase.first.injEq] at hphase
    subst hphase
    have hfields := hown i n message command _ (Function.update_self _ _ _)
    rw [(h.inv.numbered i n message (by rw [hi]; rfl)).2] at hfields
    simp only [fields, (fields_marked n n).1, (fields_marked n n).2, Prod.mk.injEq] at hfields
    rcases hread with he | ⟨he, hlast⟩
    · rw [he] at hfields
      exact absurd hfields.2 (by simp [strtokFrom])
    · rw [he, (fields_marked n k).2, Option.some.injEq] at hfields
      have hk : k = n := by
        by_contra hne
        have h2 := hfields.2
        unfold markedAddress at h2
        rw [if_neg hne, if_pos rfl] at h2
        revert h2
        decide
      exact hlast i message command (hk ▸ hi)
  · refine ⟨hinv, hf, ?_⟩
    intro k' rest' hsave'
    left
    simp only [Option.some.injEq, Prod.mk.injEq] at hsave'
    rw [← hsave'.2]
    exact hleft

theorem mixTurn_step {b : ℕ} (h : MixTurn b s t) (hs : strtokStep (marked b) (fun _ => []) s o = some s')
    (ht : turnStep t o = some t') (hf : Follows s' t') (hown : OwnFields s') : TurnOf b t o ∧ MixTurn b s' t' := by
  have hinv := strtokInv_step h.inv hs
  cases o with
  | recv i =>
    obtain ⟨hi, rfl⟩ := strtokStep_recv hs
    rw [turnStep_recv (h.follows.of_handler hi), Option.some.injEq] at ht
    subst ht
    refine ⟨trivial, hinv, hf, ?_⟩
    intro k rest hsave
    rcases h.save k rest hsave with hr | ⟨hr, hlast⟩
    · exact Or.inl hr
    · refine Or.inr ⟨hr, ?_⟩
      intro j m c hj
      exact hlast j m c (update_eq_first (by simp) hj)
  | first i =>
    obtain ⟨n, message, hi, rfl⟩ := strtokStep_first hs
    rw [turnStep_first (h.follows.of_handler hi), Option.some.injEq] at ht
    subst ht
    refine ⟨trivial, hinv, hf, ?_⟩
    intro k rest hsave
    simp only [Option.some.injEq, Prod.mk.injEq] at hsave
    obtain ⟨rfl, rfl⟩ := hsave
    obtain ⟨-, rfl⟩ := h.inv.numbered i n message (by rw [hi]; rfl)
    refine Or.inr ⟨by rw [(fields_marked b n).1], ?_⟩
    intro j m c hj
    -- the message belongs to one handler
    exact congrArg some (hinv.distinct i j n _ m (by simp only [Function.update_self]; rfl) (by rw [hj]; rfl))
  | second i => exact mixTurn_second h hs ht hf hown
  | finish i =>
    obtain ⟨n, message, command, ip, hi, rfl⟩ := strtokStep_finish hs
    rw [turnStep_finish (h.follows.of_handler hi), Option.some.injEq] at ht
    subst ht
    refine ⟨trivial, hinv, hf, ?_⟩
    intro k rest hsave
    rcases h.save k rest hsave with hr | ⟨hr, hlast⟩
    · exact Or.inl hr
    · refine Or.inr ⟨hr, ?_⟩
      intro j m c hj
      exact hlast j m c (update_eq_first (by simp) hj)

/-! ## The exact condition -/

/-- **Requests do not mix exactly when calls are clear.** For every order of steps: every handler acts on the two fields
of its own message, whatever the messages are and whatever freed memory reads as, if and only if no handler's second
call of `strtok` comes after a call of another handler that came after its own first one. -/
theorem own_fields_iff (ops : List StrtokOp) :
    (∀ messages freed, EveryState (strtokStep messages freed) OwnFields strtokStart ops) ↔
      EveryStep turnStep (fun t o _ => CallClear t o) turnStart ops := by
  refine ⟨?_, ?_⟩
  · intro hall pre o hpre t t' ht ht'
    cases o with
    | second i =>
      obtain ⟨n, hn⟩ : ∃ n, t.phase i = .first n := by
        cases hp : t.phase i with
        | first n => exact ⟨n, rfl⟩
        | _ => simp [turnStep, hp] at ht'
      -- the run in which message n is for another address than all others
      have hturn : EveryStep turnStep (fun t o _ => TurnOf n t o) turnStart ops := by
        refine everyStep_of_follows _ (R := fun s t => MixTurn n s t) (P := OwnFields) ?_ (mixTurn_start n)
          (hall (marked n) fun _ => [])
        intro s t o t' hR ht
        obtain ⟨s', hs, hf⟩ := step_of_turn (fun _ => []) hR.inv hR.follows ht
        exact ⟨s', hs, mixTurn_step hR hs ht hf⟩
      exact hturn pre (.second i) hpre t t' ht ht' hn
    | _ => trivial
  · intro hclear messages freed
    refine everyState_of_follows _ (R := fun s t => OwnTurn messages s t) (fun _ _ hR => hR.own) ?_
      (ownTurn_start messages) hclear
    intro s t o s' hR hs
    obtain ⟨t', ht, hf⟩ := follows_step hR.follows hs
    exact ⟨t', ht, ownTurn_step hR hs ht hf⟩

/-- two handlers, each call of the second between the calls of the first -/
def mixingRun : List StrtokOp := [.recv 0, .recv 1, .first 0, .first 1, .second 0]

/-- **A handler acts on another connection's address.** Handler 0 has read "ADD;10.4.11.1" and acts on 10.4.11.2. -/
theorem fields_of_another_connection :
    ¬ EveryState (strtokStep (marked 0) fun _ => []) OwnFields strtokStart mixingRun := by
  intro h
  obtain ⟨s, hs, h0⟩ : ∃ s, run (strtokStep (marked 0) fun _ => []) strtokStart mixingRun = some s ∧
      s.handler 0 = .split 0 messageA.text (some "ADD".toList) (some addressB) := by
    refine ⟨_, rfl, ?_⟩
    decide
  have hfields := h _ (List.prefix_refl _) s hs 0 _ _ _ _ h0
  revert hfields
  decide

/-- a handler with its own fields does what `dispatch` says of its message -/
theorem dispatch_ownFields (hown : OwnFields s) {i n : ℕ} {m : Text} {c ip : Option Text}
    (hi : s.handler i = .split n m c ip) (hm : m ≠ []) (junk : Freed) : dispatchFields junk c ip = dispatch junk m := by
  have hfields := hown i n m c ip hi
  rw [dispatch, if_neg hm, ← hfields]

end NetSec.NatServer
