/-
What a cleaner removes, and in which order (NAT/NATServer.c, lines 608-649, over NAT/LinkedList.c).

`Cleaning` is one list as the source has it, with its cleaner and the threads that append to it: `cleaningStep` reads
the head without the lock, waits, and pops later. The handlers may append between any two of its steps, the clock may
move, and the rules may change. `removeExpiredMappings_refines` makes each of its steps a `cleanerStep` on the elements
the list represents, which is what the cleaners of `Threads` do.

- `Sound` is what a cleaner knows at each point: between the test of the head and the removal, the head it has seen
  stays the head. Appending keeps it, as does the clock;
- `nothing_expired_early`: what a cleaner hands to its expiration action is never NULL, is the element it waited for,
  and is due; and a cleaner never reads a NULL pointer.
-/
import NetSec.NatServer.LinkedList
import NetSec.NatServer.Threads

namespace NetSec.NatServer

open NetSec.Run

variable {α : Type}

/-! ## One list and its cleaner -/

structure Cleaning (α : Type) where
  now : ℤ
  list : LinkedList α
  cleaner : CleanerPc α
  fw : Firewall

inductive CleaningOp (α : Type) where
  | wait (d : ℕ)
  /-- a handler appends an element; `addr` is where the new node lies -/
  | insert (addr : ℕ) (elm : α)
  /-- the other threads change the rules -/
  | rules (fw : Firewall)
  | clean

/-- one step of removeExpiredMappings on the list of the source; `none` at a NULL pointer -/
def removeExpiredMappings (time : α → ℤ) (action : α → List Call) (now : ℤ) (list : LinkedList α) (fw : Firewall) :
    CleanerPc α → Option (CleanerPc α × LinkedList α × Firewall)
  | .top => some (if list.head = none then .top else .headSeen, list, fw)
  | .headSeen => list.headElm.map fun elm => (.waiting elm, list, fw)
  | .waiting elm => some (if now < getExpirationTimeMap (time elm) then .waiting elm else .popping elm, list, fw)
  | .popping elm => list.popElement.map fun (popped, list) =>
      (.acting elm popped ⟨(popped.map action).getD [], none⟩, list, fw)
  | .acting _ none _ => none
  | .acting waited (some popped) calls =>
    match callStep fw calls with
    | some (calls, fw) => some (.acting waited (some popped) calls, list, fw)
    | none => some (.top, list, fw)

def cleaningStep (time : α → ℤ) (action : α → List Call) (s : Cleaning α) : CleaningOp α → Option (Cleaning α)
  | .wait d => some { s with now := s.now + d }
  | .insert addr elm =>
    -- malloc returns no address that is in use
    if s.list.node addr = none then (s.list.insertElement addr elm).map fun list => { s with list := list } else none
  | .rules fw => some { s with fw := fw }
  | .clean =>
    (removeExpiredMappings time action s.now s.list s.fw s.cleaner).map
      fun (pc, list, fw) => { s with list := list, cleaner := pc, fw := fw }

/-- the list that main creates, its cleaner about to start -/
def startCleaning (now : ℤ) (fw : Firewall) : Cleaning α := ⟨now, LinkedList.createList, .top, fw⟩

/-- the threads as main starts them: no handler is busy, both lists are empty -/
def startThreads (now : ℤ) (fw : Firewall) : Threads := ⟨⟨now, fw, [], [], []⟩, fun _ => .idle, .top, .top⟩

/-- **The cleaner on the source's list is the cleaner on its elements**, step by step -/
theorem removeExpiredMappings_refines {list : LinkedList α} {elms : List α} (h : list.Represents elms) (time : α → ℤ)
    (action : α → List Call) (now : ℤ) (fw : Firewall) (pc : CleanerPc α) :
    Option.Rel (fun c a => c.1 = a.1 ∧ c.2.1.Represents a.2.1 ∧ c.2.2 = a.2.2)
      (removeExpiredMappings time action now list fw pc) (cleanerStep time action now elms fw pc) := by
  obtain ⟨hhead, helm⟩ := LinkedList.head_represents h
  cases pc with
  | top =>
    refine .some ⟨?_, h, rfl⟩
    simp [hhead]
  | headSeen =>
    simp only [removeExpiredMappings, cleanerStep, helm]
    cases elms with
    | nil => exact .none
    | cons elm rest => exact .some ⟨rfl, h, rfl⟩
  | waiting elm =>
    apply Option.Rel.some
    exact ⟨rfl, h, rfl⟩
  | popping elm =>
    obtain ⟨list', hpop, h'⟩ := LinkedList.popElement_represents h
    simp only [removeExpiredMappings, cleanerStep, hpop]
    cases elms with
    | nil => exact .some ⟨rfl, h', rfl⟩
    | cons elm rest => exact .some ⟨rfl, h', rfl⟩
  | acting waited popped calls =>
    cases popped with
    | none => exact .none
    | some popped =>
      cases hcall : callStep fw calls with
      | none =>
        simp only [removeExpiredMappings, cleanerStep, hcall]
        apply Option.Rel.some
        exact ⟨rfl, h, rfl⟩
      | some called =>
        simp only [removeExpiredMappings, cleanerStep, hcall]
        apply Option.Rel.some
        exact ⟨rfl, h, rfl⟩

/-! ## What a cleaner knows -/

/-- the element is to be removed: its lease and its grace period are over -/
def Due (time : α → ℤ) (now : ℤ) (elm : α) : Prop := getExpirationTimeMap (time elm) ≤ now

instance (time : α → ℤ) (now : ℤ) (elm : α) : Decidable (Due time now elm) := by unfold Due; infer_instance

def Sound (time : α → ℤ) (now : ℤ) (elms : List α) : CleanerPc α → Prop
  | .top => True
  | .headSeen => elms ≠ []
  | .waiting elm => elms.head? = some elm
  | .popping elm => elms.head? = some elm ∧ Due time now elm
  | .acting waited popped _ => popped = some waited ∧ Due time now waited

/-- what is handed to the expiration action is the element waited for, and is due -/
def ActsOnDue (time : α → ℤ) (now : ℤ) : CleanerPc α → Prop
  | .acting waited popped _ => popped = some waited ∧ Due time now waited
  | _ => True

variable {time : α → ℤ} {action : α → List Call} {now : ℤ} {elms : List α} {pc : CleanerPc α}

theorem Sound.actsOnDue (h : Sound time now elms pc) : ActsOnDue time now pc := by
  cases pc with
  | acting waited popped calls => exact h
  | _ => trivial

theorem Sound.later (h : Sound time now elms pc) {now' : ℤ} (hnow : now ≤ now') : Sound time now' elms pc := by
  cases pc with
  | popping elm => exact ⟨h.1, h.2.trans hnow⟩
  | acting waited popped calls => exact ⟨h.1, h.2.trans hnow⟩
  | _ => exact h

/-- in a list in order of time, nothing is due behind a head that is not -/
theorem due_head {l : List α} (h : l.Pairwise fun a b => time a ≤ time b) {a : α} (ha : a ∈ l.head?)
    (hdue : ¬ Due time now a) : ∀ x ∈ l, ¬ Due time now x := by
  cases l with
  | nil => cases ha
  | cons b rest =>
    obtain rfl : b = a := by simpa using ha
    intro x hx hdue'
    rcases List.mem_cons.1 hx with rfl | hx
    · exact hdue hdue'
    · have hle := (List.pairwise_cons.1 h).1 x hx
      unfold Due getExpirationTimeMap at hdue hdue'
      omega

/-- **Appending leaves the head.** -/
theorem Sound.append (h : Sound time now elms pc) (new : List α) : Sound time now (elms ++ new) pc := by
  have hhead {elm : α} (he : elms.head? = some elm) : (elms ++ new).head? = some elm := by
    rw [List.head?_append, he]
    rfl
  cases pc with
  | headSeen => exact List.append_ne_nil_of_left_ne_nil h new
  | waiting elm => exact hhead h
  | popping elm => exact ⟨hhead h.1, h.2⟩
  | _ => exact h

/-- **A step of the cleaner.** It can be made, and the cleaner knows afterwards what it is to know. -/
theorem sound_cleanerStep (h : Sound time now elms pc) (action : α → List Call) (fw : Firewall) :
    ∃ pc' elms' fw', cleanerStep time action now elms fw pc = some (pc', elms', fw') ∧ Sound time now elms' pc' := by
  cases pc with
  | top =>
    refine ⟨_, _, _, rfl, ?_⟩
    cases elms with
    | nil => trivial
    | cons elm rest => exact List.cons_ne_nil elm rest
  | headSeen =>
    cases elms with
    | nil => exact absurd rfl h
    | cons elm rest => exact ⟨_, _, _, rfl, rfl⟩
  | waiting elm =>
    refine ⟨_, _, _, rfl, ?_⟩
    split_ifs with hdue
    · exact h
    · exact ⟨h, not_lt.1 hdue⟩
  | popping elm =>
    obtain ⟨hhead, hdue⟩ := h
    refine ⟨_, _, _, rfl, ?_, hdue⟩
    cases elms with
    | nil => cases hhead
    | cons elm' rest => exact hhead
  | acting waited popped calls =>
    obtain ⟨rfl, hdue⟩ := h
    simp only [cleanerStep]
    split
    · exact ⟨_, _, _, rfl, rfl, hdue⟩
    · exact ⟨_, _, _, rfl, trivial⟩

/-! ## The source's list -/

/-- the list represents elements about which the cleaner knows what it is to know -/
def CleaningInv (time : α → ℤ) (s : Cleaning α) : Prop :=
  ∃ elms, s.list.Represents elms ∧ Sound time s.now elms s.cleaner

theorem cleaningInv_start (now : ℤ) (fw : Firewall) : CleaningInv time (startCleaning now fw : Cleaning α) :=
  ⟨[], LinkedList.createList_represents, trivial⟩

/-- from a sound state the cleaner's step can be made -/
theorem cleaningInv_clean {s : Cleaning α} (h : CleaningInv time s) (action : α → List Call) :
    ∃ s', cleaningStep time action s .clean = some s' ∧ CleaningInv time s' := by
  obtain ⟨elms, hrep, hsound⟩ := h
  obtain ⟨pc', elms', fw', hstep, hsound'⟩ := sound_cleanerStep hsound action s.fw
  have href := removeExpiredMappings_refines hrep time action s.now s.fw s.cleaner
  rw [hstep] at href
  rcases hc : removeExpiredMappings time action s.now s.list s.fw s.cleaner with _ | ⟨pc, list, fw⟩ <;> rw [hc] at href
  · cases href
  · obtain ⟨hpc, hrep', -⟩ := Option.rel_some_some.1 href
    refine ⟨{ s with list := list, cleaner := pc, fw := fw }, by simp only [cleaningStep, hc, Option.map_some], ?_⟩
    refine ⟨elms', hrep', ?_⟩
    change pc = pc' at hpc
    rw [hpc]
    exact hsound'

theorem cleaningInv_step (s : Cleaning α) (o : CleaningOp α) (s' : Cleaning α) (h : CleaningInv time s)
    (hs : cleaningStep time action s o = some s') : CleaningInv time s' := by
  obtain ⟨elms, hrep, hsound⟩ := h
  cases o with
  | wait d =>
    obtain rfl := Option.some.inj hs
    exact ⟨elms, hrep, hsound.later (le_add_of_nonneg_right d.cast_nonneg)⟩
  | insert addr elm =>
    simp only [cleaningStep] at hs
    split_ifs at hs with hfree
    obtain ⟨list', hinsert, hrep'⟩ := LinkedList.insertElement_represents hrep hfree elm
    rw [hinsert] at hs
    obtain rfl := Option.some.inj hs
    exact ⟨elms ++ [elm], hrep', hsound.append [elm]⟩
  | rules fw =>
    obtain rfl := Option.some.inj hs
    exact ⟨elms, hrep, hsound⟩
  | clean =>
    obtain ⟨s'', hs'', hinv⟩ := cleaningInv_clean ⟨elms, hrep, hsound⟩ action
    rw [hs''] at hs
    exact Option.some.inj hs ▸ hinv

/-! ## The threads -/

/-- the mapping, or the ban, that a handler is about to append -/
def Pc.newMapping : Pc → Option Mapping
  | .addInsert map => some map
  | _ => none

def Pc.newBan : Pc → Option Ban
  | .banInsert map => some map
  | _ => none

/-- **Handlers only append**, and only where they insert -/
theorem handlerStep_lists {rand : ℕ} {s s' : Server} {pc pc' : Pc} (h : handlerStep rand s pc = some (pc', s')) :
    s'.now = s.now ∧ s'.mappingList = s.mappingList ++ pc.newMapping.toList ∧
      s'.bannedList = s.bannedList ++ pc.newBan.toList := by
  cases pc with
  | idle => simp [handlerStep] at h
  | addInsert map =>
    simp only [handlerStep, Option.some.injEq, Prod.mk.injEq] at h
    obtain ⟨-, rfl⟩ := h
    exact ⟨rfl, rfl, (List.append_nil _).symm⟩
  | banInsert map =>
    simp only [handlerStep, Option.some.injEq, Prod.mk.injEq] at h
    obtain ⟨-, rfl⟩ := h
    exact ⟨rfl, (List.append_nil _).symm, rfl⟩
  | _ =>
    simp only [handlerStep] at h
    (try split at h) <;> simp only [Option.some.injEq, Prod.mk.injEq] at h <;> obtain ⟨-, rfl⟩ := h <;>
      exact ⟨rfl, (List.append_nil _).symm, (List.append_nil _).symm⟩

/-- both cleaners know what they are to know -/
structure CleanersSound (t : Threads) : Prop where
  mapping : Sound Mapping.time t.srv.now t.srv.mappingList t.mappingCleaner
  ban : Sound Ban.time t.srv.now t.srv.bannedList t.banCleaner

/-- from a sound state both cleaners' steps can be made -/
theorem cleanersSound_clean {t : Threads} (h : CleanersSound t) :
    (∃ t', threadStep t .cleanMapping = some t' ∧ CleanersSound t') ∧
      ∃ t', threadStep t .cleanBan = some t' ∧ CleanersSound t' := by
  obtain ⟨pc, elms, fw, hs, hsound⟩ := sound_cleanerStep h.mapping expiredMapCalls t.srv.fw
  obtain ⟨pc', elms', fw', hs', hsound'⟩ := sound_cleanerStep h.ban expiredBanCalls t.srv.fw
  refine ⟨?_, ?_⟩
  · refine ⟨{ t with srv := { t.srv with mappingList := elms, fw := fw }, mappingCleaner := pc }, ?_, hsound, h.ban⟩
    simp only [threadStep, hs, Option.map_some]
  · refine ⟨{ t with srv := { t.srv with bannedList := elms', fw := fw' }, banCleaner := pc' }, ?_, h.mapping, hsound'⟩
    simp only [threadStep, hs', Option.map_some]

theorem cleanersSound_step (t : Threads) (o : ThreadOp) (t' : Threads) (h : CleanersSound t)
    (hs : threadStep t o = some t') : CleanersSound t' := by
  cases o with
  | wait d =>
    obtain rfl := Option.some.inj hs
    have hnow : t.srv.now ≤ t.srv.now + d := le_add_of_nonneg_right d.cast_nonneg
    exact ⟨h.mapping.later hnow, h.ban.later hnow⟩
  | recvAdd i ip uninit =>
    obtain ⟨-, rfl⟩ := threadStep_recvAdd hs
    exact ⟨h.mapping, h.ban⟩
  | recvBan i ip =>
    obtain ⟨-, rfl⟩ := threadStep_recvBan hs
    exact ⟨h.mapping, h.ban⟩
  | handle i rand =>
    obtain ⟨pc, srv, hstep, rfl⟩ := threadStep_handle hs
    obtain ⟨hnow, hmapping, hban⟩ := handlerStep_lists hstep
    refine ⟨?_, ?_⟩
    · show Sound Mapping.time srv.now srv.mappingList t.mappingCleaner
      rw [hnow, hmapping]
      exact h.mapping.append _
    · show Sound Ban.time srv.now srv.bannedList t.banCleaner
      rw [hnow, hban]
      exact h.ban.append _
  | cleanMapping =>
    obtain ⟨⟨t'', hs'', hinv⟩, -⟩ := cleanersSound_clean h
    rw [hs''] at hs
    exact Option.some.inj hs ▸ hinv
  | cleanBan =>
    obtain ⟨-, t'', hs'', hinv⟩ := cleanersSound_clean h
    rw [hs''] at hs
    exact Option.some.inj hs ▸ hinv

/-- **Nothing is expired early.** On the source's list, over elements of any kind, and in the whole server: in every
state of every run, what a cleaner hands to its action is the element it waited for, not NULL, and due; and the next
step of a cleaner can always be made. -/
theorem nothing_expired_early (now : ℤ) (fw : Firewall) :
    (∀ (α : Type) (time : α → ℤ) (action : α → List Call) (ops : List (CleaningOp α)),
      EveryState (cleaningStep time action)
        (fun s => ActsOnDue time s.now s.cleaner ∧ (cleaningStep time action s .clean).isSome)
        (startCleaning now fw) ops) ∧
    ∀ ops : List ThreadOp,
      EveryState threadStep
        (fun t => (ActsOnDue Mapping.time t.srv.now t.mappingCleaner ∧ (threadStep t .cleanMapping).isSome) ∧
          ActsOnDue Ban.time t.srv.now t.banCleaner ∧ (threadStep t .cleanBan).isSome)
        (startThreads now fw) ops := by
  refine ⟨?_, ?_⟩
  · intro α time action ops
    refine everyState_of_inv _ cleaningInv_step ?_ (cleaningInv_start now fw) ops
    intro s h
    obtain ⟨s', hs', -⟩ := cleaningInv_clean h action
    obtain ⟨elms, -, hsound⟩ := h
    exact ⟨hsound.actsOnDue, by rw [hs']; rfl⟩
  · intro ops
    have hstart : CleanersSound (startThreads now fw) := ⟨trivial, trivial⟩
    refine everyState_of_inv threadStep cleanersSound_step ?_ hstart ops
    intro t h
    obtain ⟨⟨s, hs, -⟩, ⟨s', hs', -⟩⟩ := cleanersSound_clean h
    exact ⟨⟨h.mapping.actsOnDue, by rw [hs]; rfl⟩, h.ban.actsOnDue, by rw [hs']; rfl⟩

end NetSec.NatServer
