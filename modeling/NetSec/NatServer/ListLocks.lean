/-
Do list operations exclude each other?

The threads of `Threads` with their mutexes: a step that works on a list becomes three, lock, operation, unlock
(`lockStep`). Mutex objects are values (`Mutex.Objects`). main assigns `mappingListLock` and `bannedListLock` to the
`listLock` fields of the two CleanerData structs (`setUp`); an assignment copies, so each list has two objects: handlers
lock the global, the list's cleaner locks its copy.

`Exclusion`: at most one thread is between its lock and its unlock around an operation on one list. It fails
(`cleaner_and_handler_inside`).

- `lists_exclusive_iff`: exclusion in every state of a run, exactly when every lock is taken while both objects of its
  list are free (`LockClear`);
- `handlers_exclusive`: handlers do exclude each other, in every run, as they lock the same object;
- `locked_refines`, `sections_alone`: without its locks a run is a run of the threads, and a thread that is not
  disturbed in its section makes the step the threads make at once.
-/
import NetSec.Core.Mutex
import NetSec.NatServer.AddressReuse
import NetSec.NatServer.Threads

namespace NetSec.NatServer

open NetSec.Run NetSec.Mutex

/-! ## Model -/

/-- the two global mutex objects -/
def mappingListLock : ℕ := 0
def bannedListLock : ℕ := 1

/-- what a cleaner is started with: its list, and the mutex object inside the struct -/
structure CleanerData where
  list : ListId
  listLock : ℕ
deriving DecidableEq, Repr

structure Locked where
  threads : Threads
  mutexes : Objects Tid
  mappingData : CleanerData
  banData : CleanerData
  /-- the section a thread is in, and whether it has made its list operation -/
  inside : Tid → Option (ListId × Bool)

/-- main: the globals are initialised, then each cleaner's `listLock` is assigned from one of them -/
def setUp (t : Threads) : Locked :=
  let mutexes : Objects Tid := [none, none]
  let (listLock, mutexes) := copy mappingListLock mutexes
  let mappingData : CleanerData := ⟨.mapping, listLock⟩
  let (listLock, mutexes) := copy bannedListLock mutexes
  let banData : CleanerData := ⟨.banned, listLock⟩
  ⟨t, mutexes, mappingData, banData, fun _ => none⟩

/-- the list that a handler's next step works on, under its lock -/
def Pc.nextList : Pc → Option ListId
  | .addSearch _ _ => some .mapping
  | .addProbe _ _ _ => some .mapping
  | .addInsert _ => some .mapping
  | .banInsert _ => some .banned
  | _ => none

def CleanerPc.nextList {α : Type} (data : CleanerData) : CleanerPc α → Option ListId
  | .popping _ => some data.list
  | _ => none

def nextList (s : Locked) : Tid → Option ListId
  | .handler i => (s.threads.handler i).nextList
  | .mappingCleaner => s.threads.mappingCleaner.nextList s.mappingData
  | .banCleaner => s.threads.banCleaner.nextList s.banData

def globalLock : ListId → ℕ
  | .mapping => mappingListLock
  | .banned => bannedListLock

/-- the object a thread locks around its operations on a list -/
def lockObject (s : Locked) (l : ListId) : Tid → ℕ
  | .handler _ => globalLock l
  | .mappingCleaner => s.mappingData.listLock
  | .banCleaner => s.banData.listLock

inductive LockOp where
  | lock (t : Tid)
  | run (o : ThreadOp)
  | unlock (t : Tid)
deriving DecidableEq, Repr

def lockStep (s : Locked) : LockOp → Option Locked
  | .lock t =>
    match nextList s t, s.inside t with
    | some l, none => (lock (lockObject s l t) t s.mutexes).map fun mutexes =>
        { s with mutexes := mutexes, inside := Function.update s.inside t (some (l, false)) }
    | _, _ => none
  | .run o =>
    match o.thread with
    | none => (threadStep s.threads o).map fun threads => { s with threads := threads }
    | some t =>
      match nextList s t, s.inside t with
      | none, none => (threadStep s.threads o).map fun threads => { s with threads := threads }
      | some _, some (l, false) => (threadStep s.threads o).map fun threads =>
          { s with threads := threads, inside := Function.update s.inside t (some (l, true)) }
      | _, _ => none
  | .unlock t =>
    match s.inside t with
    | some (l, true) =>
      some { s with
        mutexes := unlock (lockObject s l t) s.mutexes
        inside := Function.update s.inside t none }
    | _ => none

/-! ## Properties -/

/-- the list whose section a thread is in, from its lock to its unlock -/
def inList (s : Locked) (t : Tid) : Option ListId := (s.inside t).map Prod.fst

/-- at most one thread is in the section of a list -/
def Exclusion (s : Locked) : Prop := ∀ l t t', inList s t = some l → inList s t' = some l → t = t'

/-- the objects that threads lock for a list -/
def objectsOf (s : Locked) (l : ListId) : List ℕ :=
  match l with
  | .mapping => [mappingListLock, s.mappingData.listLock]
  | .banned => [bannedListLock, s.banData.listLock]

/-- a lock is taken while no object of its list is held -/
def LockClear (s : Locked) : LockOp → Prop
  | .lock t => ∀ l, nextList s t = some l → ∀ m ∈ objectsOf s l, Free s.mutexes m
  | _ => True

/-! ## What each step does -/

theorem lockStep_lock {s s' : Locked} {t : Tid} (h : lockStep s (.lock t) = some s') :
    ∃ l mutexes, nextList s t = some l ∧ s.inside t = none ∧ lock (lockObject s l t) t s.mutexes = some mutexes ∧
      s' = { s with mutexes := mutexes, inside := Function.update s.inside t (some (l, false)) } := by
  simp only [lockStep] at h
  split at h
  · rename_i l hl hin
    simp only [Option.map_eq_some_iff] at h
    obtain ⟨mutexes, hm, rfl⟩ := h
    exact ⟨l, mutexes, hl, hin, hm, rfl⟩
  · cases h

theorem lockStep_unlock {s s' : Locked} {t : Tid} (h : lockStep s (.unlock t) = some s') :
    ∃ l, s.inside t = some (l, true) ∧
      s' = { s with
        mutexes := unlock (lockObject s l t) s.mutexes
        inside := Function.update s.inside t none } := by
  simp only [lockStep] at h
  split at h
  · rename_i l hin
    exact ⟨l, hin, (Option.some.inj h).symm⟩
  · cases h

/-- a step of a thread changes no mutex, and nobody enters or leaves a section -/
theorem lockStep_run {s s' : Locked} {o : ThreadOp} (h : lockStep s (.run o) = some s') :
    threadStep s.threads o = some s'.threads ∧ s'.mutexes = s.mutexes ∧ s'.mappingData = s.mappingData ∧
      s'.banData = s.banData ∧ ∀ t, inList s' t = inList s t := by
  simp only [lockStep] at h
  split at h
  · simp only [Option.map_eq_some_iff] at h
    obtain ⟨threads, hs, rfl⟩ := h
    exact ⟨hs, rfl, rfl, rfl, fun _ => rfl⟩
  · rename_i t ht
    split at h
    · simp only [Option.map_eq_some_iff] at h
      obtain ⟨threads, hs, rfl⟩ := h
      exact ⟨hs, rfl, rfl, rfl, fun _ => rfl⟩
    · rename_i l' l hl hin
      simp only [Option.map_eq_some_iff] at h
      obtain ⟨threads, hs, rfl⟩ := h
      refine ⟨hs, rfl, rfl, rfl, ?_⟩
      intro t'
      by_cases hne : t' = t
      · subst hne; simp [inList, hin]
      · simp [inList, Function.update_of_ne hne]
    · cases h

/-! ## The invariant -/

/-- the object a thread in a section holds -/
def guard (s : Locked) (t : Tid) : Option ℕ := (inList s t).map fun l => lockObject s l t

structure LockInv (s : Locked) : Prop where
  mappingData : s.mappingData = ⟨.mapping, 2⟩
  banData : s.banData = ⟨.banned, 3⟩
  objects : s.mutexes.length = 4
  guarded : Guarded s.mutexes (guard s)
  /-- a cleaner works on its own list only -/
  ownMapping : ∀ l, inList s .mappingCleaner = some l → l = .mapping
  ownBanned : ∀ l, inList s .banCleaner = some l → l = .banned

theorem lockInv_setUp (t : Threads) : LockInv (setUp t) := by
  refine ⟨rfl, rfl, rfl, ?_, by simp [inList, setUp], by simp [inList, setUp]⟩
  intro t' m
  apply iff_of_false (by simp [guard, inList, setUp])
  intro h
  unfold Holds at h
  obtain ⟨hm, h⟩ := List.getElem?_eq_some_iff.1 h
  have hall : ∀ x ∈ (setUp t).mutexes, x = none := by simp [setUp, copy, mappingListLock, bannedListLock]
  simp [hall _ (List.getElem_mem hm)] at h

theorem inList_update {s : Locked} {t : Tid} (p : Option (ListId × Bool)) {mutexes : Objects Tid} (t' : Tid) :
    inList { s with mutexes := mutexes, inside := Function.update s.inside t p } t' =
      if t' = t then p.map Prod.fst else inList s t' := by
  unfold inList
  by_cases h : t' = t
  · subst h; simp
  · simp [h]

/-- after one thread has entered the section it was at, whoever is in one was at it or in it before -/
theorem inList_of_enter {s : Locked} {t t' : Tid} {mutexes : Objects Tid} {l l' : ListId}
    (hnext : nextList s t = some l)
    (h : inList { s with mutexes := mutexes, inside := Function.update s.inside t (some (l, false)) } t' = some l') :
    nextList s t' = some l' ∨ inList s t' = some l' := by
  rw [inList_update] at h
  split_ifs at h with ht
  · left
    rw [ht, hnext]
    exact h
  · exact Or.inr h

/-- after one thread has left its section, whoever is in one was in it before -/
theorem inList_of_leave {s : Locked} {t t' : Tid} {mutexes : Objects Tid} {l : ListId}
    (h : inList { s with mutexes := mutexes, inside := Function.update s.inside t none } t' = some l) :
    inList s t' = some l := by
  rw [inList_update] at h
  split_ifs at h
  · simp at h
  · exact h

theorem guard_update {s : Locked} {t : Tid} (p : Option (ListId × Bool)) {mutexes : Objects Tid} :
    guard { s with mutexes := mutexes, inside := Function.update s.inside t p } =
      Function.update (guard s) t (p.map fun q => lockObject s q.1 t) := by
  funext t'
  unfold guard
  rw [inList_update]
  by_cases h : t' = t
  · subst h
    rw [Function.update_self, if_pos rfl, Option.map_map]
    rfl
  · rw [Function.update_of_ne h, if_neg h]
    rfl

/-- the list of a thread's next section is one it may work on -/
theorem nextList_own {s : Locked} (h : LockInv s) :
    (∀ l, nextList s .mappingCleaner = some l → l = .mapping) ∧ ∀ l, nextList s .banCleaner = some l → l = .banned := by
  constructor <;> intro l hl <;> simp only [nextList, CleanerPc.nextList] at hl <;> split at hl
  · simpa [h.mappingData, eq_comm] using hl
  · cases hl
  · simpa [h.banData, eq_comm] using hl
  · cases hl

theorem lockInv_step (s : Locked) (o : LockOp) (s' : Locked) (h : LockInv s) (hs : lockStep s o = some s') :
    LockInv s' := by
  cases o with
  | lock t =>
    obtain ⟨l, mutexes, hnext, hin, hlock, rfl⟩ := lockStep_lock hs
    refine ⟨h.mappingData, h.banData, (length_lock hlock).trans h.objects, ?_, ?_, ?_⟩
    · rw [guard_update]
      exact h.guarded.lock (by simp [guard, inList, hin]) hlock
    · intro l' hl'
      exact (inList_of_enter hnext hl').elim ((nextList_own h).1 l') (h.ownMapping l')
    · intro l' hl'
      exact (inList_of_enter hnext hl').elim ((nextList_own h).2 l') (h.ownBanned l')
  | run o =>
    obtain ⟨-, hmutexes, hmd, hbd, hlist⟩ := lockStep_run hs
    have hguard : guard s' = guard s := by
      funext t
      unfold guard
      rw [hlist]
      cases t <;> simp only [lockObject, hmd, hbd]
    refine ⟨hmd.trans h.mappingData, hbd.trans h.banData, by rw [hmutexes]; exact h.objects, ?_, ?_, ?_⟩
    · rw [hmutexes, hguard]; exact h.guarded
    · rw [hlist]; exact h.ownMapping
    · rw [hlist]; exact h.ownBanned
  | unlock t =>
    obtain ⟨l, hin, rfl⟩ := lockStep_unlock hs
    refine ⟨h.mappingData, h.banData, (length_unlock _ _).trans h.objects, ?_, ?_, ?_⟩
    · rw [guard_update]
      exact h.guarded.unlock (by simp [guard, inList, hin])
    · intro l' hl'
      exact h.ownMapping l' (inList_of_leave hl')
    · intro l' hl'
      exact h.ownBanned l' (inList_of_leave hl')

/-! ## The exact condition -/

/-- two threads in the section of one list under the same object are one thread -/
theorem eq_of_lockObject {s : Locked} (h : LockInv s) {l : ListId} {t t' : Tid} (ht : inList s t = some l)
    (ht' : inList s t' = some l) (hsame : lockObject s l t = lockObject s l t') : t = t' :=
  h.guarded.unique (m := lockObject s l t) (by simp [guard, ht]) (by simp [guard, ht', hsame])

/-- a thread in a section holds one of the objects of its own list, and of no other -/
theorem lockObject_mem {s : Locked} (h : LockInv s) {t : Tid} {l l' : ListId} (ht : inList s t = some l) :
    lockObject s l t ∈ objectsOf s l' ↔ l' = l := by
  cases t with
  | handler i => cases l <;> cases l' <;>
      simp [lockObject, objectsOf, globalLock, mappingListLock, bannedListLock, h.mappingData, h.banData]
  | mappingCleaner =>
    rw [h.ownMapping l ht]
    cases l' <;> simp [lockObject, objectsOf, mappingListLock, bannedListLock, h.mappingData, h.banData]
  | banCleaner =>
    rw [h.ownBanned l ht]
    cases l' <;> simp [lockObject, objectsOf, mappingListLock, bannedListLock, h.mappingData, h.banData]

/-- the objects of a list are free exactly when nobody is in its section -/
theorem free_objectsOf {s : Locked} (h : LockInv s) (l : ListId) :
    (∀ m ∈ objectsOf s l, Free s.mutexes m) ↔ ∀ t, inList s t ≠ some l := by
  refine ⟨?_, ?_⟩
  · intro hfree t ht
    have hheld : Holds s.mutexes (lockObject s l t) t := (h.guarded t _).1 (by simp [guard, ht])
    have hf := hfree _ ((lockObject_mem h ht).2 rfl)
    unfold Holds at hheld
    unfold Free at hf
    simp [hf] at hheld
  · intro hnone m hm
    have hlt : m < s.mutexes.length := by
      rw [h.objects]
      cases l <;> simp [objectsOf, mappingListLock, bannedListLock, h.mappingData, h.banData] at hm <;> omega
    unfold Free
    cases hget : s.mutexes[m]? with
    | none => exact absurd (List.getElem?_eq_none_iff.1 hget) (by omega)
    | some holder =>
      cases holder with
      | none => rfl
      | some t =>
        -- whoever holds the object is in a section, of the list the object is of
        have hguard := (h.guarded t m).2 hget
        simp only [guard, Option.map_eq_some_iff] at hguard
        obtain ⟨l', ht, rfl⟩ := hguard
        rw [lockObject_mem h ht] at hm
        exact absurd (hm ▸ ht) (hnone t)

theorem exclusion_step {s s' : Locked} {o : LockOp} (h : LockInv s) (he : Exclusion s) (hs : lockStep s o = some s') :
    Exclusion s' ↔ LockClear s o := by
  cases o with
  | lock t =>
    obtain ⟨l, mutexes, hnext, hin, hlock, rfl⟩ := lockStep_lock hs
    have hout : inList s t = none := by simp [inList, hin]
    have hclear : LockClear s (.lock t) ↔ ∀ t', inList s t' ≠ some l := by
      simp only [LockClear, hnext, Option.some.injEq, forall_eq', free_objectsOf h]
    rw [hclear]
    refine ⟨?_, ?_⟩
    · intro hexcl t' ht'
      have hne : t' ≠ t := by
        rintro rfl
        rw [hout] at ht'
        cases ht'
      exact hne (hexcl l t' t (by rw [inList_update, if_neg hne]; exact ht') (by rw [inList_update, if_pos rfl]; rfl))
    · intro hnone l' t1 t2 h1 h2
      rw [inList_update] at h1 h2
      split_ifs at h1 h2 with e1 e2 e2
      · rw [e1, e2]
      · rw [← h1] at h2; exact absurd h2 (hnone t2)
      · rw [← h2] at h1; exact absurd h1 (hnone t1)
      · exact he l' t1 t2 h1 h2
  | run o =>
    obtain ⟨-, -, -, -, hlist⟩ := lockStep_run hs
    refine iff_of_true ?_ trivial
    intro l t1 t2 h1 h2
    rw [hlist] at h1 h2
    exact he l t1 t2 h1 h2
  | unlock t =>
    obtain ⟨l, hin, rfl⟩ := lockStep_unlock hs
    refine iff_of_true ?_ trivial
    intro l' t1 t2 h1 h2
    exact he l' t1 t2 (inList_of_leave h1) (inList_of_leave h2)

/-- **Operations on a list exclude each other exactly when locks are clear.** For every interleaving of handlers and
cleaners after main's set-up: at most one thread is in the section of each list in every state, if and only if every
lock is taken while neither the global nor the copy of its list is held. -/
theorem lists_exclusive_iff (t : Threads) (ops : List LockOp) :
    EveryState lockStep Exclusion (setUp t) ops ↔ EveryStep lockStep (fun s o _ => LockClear s o) (setUp t) ops :=
  everyState_iff lockStep (I := LockInv)
    (fun s o s' h he hs => ⟨lockInv_step s o s' h hs, exclusion_step h he hs⟩) (lockInv_setUp t)
    (fun _ _ _ h => by cases h) ops

/-- **Handlers exclude each other.** They all lock the global. -/
theorem handlers_exclusive (t : Threads) (ops : List LockOp) :
    EveryState lockStep (fun s => ∀ l i j, inList s (.handler i) = some l → inList s (.handler j) = some l → i = j)
      (setUp t) ops := by
  refine everyState_of_inv lockStep lockInv_step ?_ (lockInv_setUp t) ops
  intro s h l i j hi hj
  exact Tid.handler.inj (eq_of_lockObject h hi hj rfl)

/-- a section of a handler that nobody disturbs -/
def sectionOps (t : Tid) (o : ThreadOp) : List LockOp := [.lock t, .run o, .unlock t]

/-- a mapping is installed; seven seconds later its cleaner is about to pop it when another request comes in -/
def cleaningRun : List LockOp :=
  [.run (.recvAdd 0 clientA []), .run (.handle 0 0)] ++ sectionOps (.handler 0) (.handle 0 0) ++ [.run (.handle 0 0)] ++
    sectionOps (.handler 0) (.handle 0 0) ++ List.replicate 6 (.run (.handle 0 0)) ++
    sectionOps (.handler 0) (.handle 0 0) ++
    [.run .cleanMapping, .run .cleanMapping, .run (.wait 7), .run .cleanMapping, .lock .mappingCleaner,
      .run (.recvAdd 1 clientB []), .run (.handle 1 0), .lock (.handler 1)]

/-- **The cleaner and a handler are inside at once.** The cleaner has locked its copy to pop the mapping, the handler
the global to search the same list. -/
theorem cleaner_and_handler_inside : ¬ EveryState lockStep Exclusion (setUp bootThreads) cleaningRun := by
  intro h
  obtain ⟨s, hs, h1, h2⟩ : ∃ s, run lockStep (setUp bootThreads) cleaningRun = some s ∧
      inList s .mappingCleaner = some .mapping ∧ inList s (.handler 1) = some .mapping := by
    refine ⟨_, rfl, ?_, ?_⟩ <;> decide
  have := h _ (List.prefix_refl _) s hs .mapping .mappingCleaner (.handler 1) h1 h2
  cases this

/-! ## With and without locks -/

/-- without its locks, a run is a run of the threads -/
theorem locked_refines {s s' : Locked} (h : Reaches lockStep s s') : Reaches threadStep s.threads s'.threads := by
  apply h.map threadStep Locked.threads
  intro s o s' hs
  cases o with
  | lock t =>
    obtain ⟨l, mutexes, -, -, -, rfl⟩ := lockStep_lock hs
    exact Reaches.refl threadStep _
  | run o => exact reaches_of_step (lockStep_run hs).1
  | unlock t =>
    obtain ⟨l, -, rfl⟩ := lockStep_unlock hs
    exact Reaches.refl threadStep _

theorem setUp_unlocked (t : Threads) (l : ListId) (tid : Tid) :
    ∃ mutexes, lock (lockObject (setUp t) l tid) tid (setUp t).mutexes = some mutexes ∧
      unlock (lockObject (setUp t) l tid) mutexes = (setUp t).mutexes := by
  have hlt : lockObject (setUp t) l tid < 4 := by
    cases tid <;> cases l <;> simp [lockObject, globalLock, setUp, copy, mappingListLock, bannedListLock]
  have hall : (setUp t).mutexes = [none, none, none, none] := rfl
  rw [hall]
  generalize lockObject (setUp t) l tid = m at hlt
  interval_cases m <;> exact ⟨_, rfl, rfl⟩

/-- a step of the threads is a section, or less, of the same thread when nobody holds a lock -/
theorem section_alone {t t' : Threads} {o : ThreadOp} (h : threadStep t o = some t') :
    Reaches lockStep (setUp t) (setUp t') := by
  cases htid : o.thread with
  | none => exact reaches_of_step (o := .run o) (by simp only [lockStep, htid, setUp, h, Option.map_some])
  | some tid =>
    have hin : (setUp t).inside tid = none := rfl
    cases hl : nextList (setUp t) tid with
    | none =>
      apply reaches_of_step (o := .run o)
      simp only [lockStep, htid, hl, hin]
      simp only [setUp, h, Option.map_some]
    | some l =>
      obtain ⟨mutexes, hlock, hunlock⟩ := setUp_unlocked t l tid
      -- the three states of the section
      set s1 : Locked := { setUp t with
        mutexes := mutexes
        inside := Function.update (setUp t).inside tid (some (l, false)) } with hs1
      set s2 : Locked := { s1 with threads := t', inside := Function.update s1.inside tid (some (l, true)) } with hs2
      have h1 : lockStep (setUp t) (.lock tid) = some s1 := by
        simp only [lockStep, hl, hin, hlock, Option.map_some, hs1]
      have hin1 : s1.inside tid = some (l, false) := by rw [hs1]; exact Function.update_self _ _ _
      have h2 : lockStep s1 (.run o) = some s2 := by
        have hl1 : nextList s1 tid = some l := by rw [← hl, hs1]; cases tid <;> rfl
        have ht : threadStep s1.threads o = some t' := h
        simp only [lockStep, htid, hl1, hin1, ht, Option.map_some, hs2]
      have hin2 : s2.inside tid = some (l, true) := by rw [hs2]; exact Function.update_self _ _ _
      have h3 : lockStep s2 (.unlock tid) = some (setUp t') := by
        have hm : unlock (lockObject s2 l tid) s2.mutexes = (setUp t').mutexes := by
          rw [← show (setUp t).mutexes = (setUp t').mutexes from rfl, ← hunlock, hs2, hs1]
          cases tid <;> rfl
        have hi : Function.update s2.inside tid none = (setUp t').inside := by
          rw [hs2, hs1]
          simp [setUp]
        simp only [lockStep, hin2, hm, hi]
        rfl
      exact ((reaches_of_step h3).after h2).after h1

theorem sections_alone {t t' : Threads} (h : Reaches threadStep t t') : Reaches lockStep (setUp t) (setUp t') :=
  h.map lockStep setUp fun _ _ _ hs => section_alone hs

end NetSec.NatServer
