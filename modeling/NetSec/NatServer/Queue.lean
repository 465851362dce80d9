/-
Is LinkedList a FIFO queue, and does removeElement take out one element? (NAT/LinkedList.c)

Calls come one after the other, each with the key and the comparison it likes. `queueCall` performs the calls of a
queue, insertElement, popElement and findElement, on the list in memory and on a list of elements side by side;
`listStep` also performs removeElement.

As a queue the list does what it is for (`list_is_queue`). removeElement does not: it hands the comparison the node in
place of the element, it makes what follows the removed node the whole list, and it leaves the tail as it is. So an
element that findElement finds is not removed, or one is that it does not find; what is in front of the removed node is
lost; and the tail of an emptied list points to freed memory (`finds_but_does_not_remove`).

- `findElement_mappings`: the searches of the server, on elements, are those on its list in memory;
- `removesExactly_iff`: one removal is right exactly when nothing matches, neither as a node nor as an element, or when
  the first of at least two matches both ways;
- `removals_exact_iff`: all removals of a run are right, exactly when each is of these kinds.
-/
import NetSec.Core.Run
import NetSec.NatServer.LinkedList
import NetSec.NatServer.Mappings

namespace NetSec.NatServer.LinkedList

open NetSec.LinkedCells NetSec.Run

variable {κ α : Type}

/-! ## The calls of a queue -/

inductive QueueOp (κ α : Type) where
  /-- `addr` is where malloc puts the node -/
  | insert (addr : ℕ) (newElement : α)
  | pop
  | find (fuel : ℕ) (elm1 : κ) (cmp : κ → Pointed α → ℤ)

/-- the list after a call -/
def queueOpStep (list : LinkedList α) : QueueOp κ α → Option (LinkedList α)
  | .insert addr newElement => insertElement addr newElement list
  | .pop => (popElement list).map Prod.snd
  | .find fuel elm1 cmp => (findElement fuel elm1 cmp list).map fun _ => list

/-- what a call is to do to the elements that were inserted and not yet popped -/
def QueueOp.apply (queue : List α) : QueueOp κ α → List α
  | .insert _ newElement => queue ++ [newElement]
  | .pop => queue.tail
  | .find _ _ _ => queue

/-- the list in memory, and the elements inserted and not yet popped -/
def queueCall (x : LinkedList α × List α) (o : QueueOp κ α) : Option (LinkedList α × List α) :=
  (queueOpStep x.1 o).map fun list => (list, o.apply x.2)

/-- the list in memory is this queue, and the next call does what it is for -/
structure IsQueue (list : LinkedList α) (queue : List α) : Prop where
  /-- the nodes from the head on hold these elements, the tail is the last, the size their number -/
  holds : Represents list queue
  tailNull : list.tail = none ↔ list.head = none
  headNull : list.head = none ↔ list.size = 0
  popped : ∃ list', popElement list = some (queue.head?, list')
  found : ∀ (κ : Type) (elm1 : κ) (cmp : κ → Pointed α → ℤ) (fuel : ℕ), queue.length ≤ fuel →
    findElement fuel elm1 cmp list = some (queue.find? fun elm => cmp elm1 (.elm elm) = 0)
  inserts : ∀ addr newElement, list.node addr = none → (insertElement addr newElement list).isSome

variable {list list' : LinkedList α} {elms : List α}

theorem isQueue_of_represents (h : Represents list elms) : IsQueue list elms := by
  have hpop := popElement_represents h
  have hhead := (head_represents h).1
  obtain ⟨addrs, hat⟩ := id h
  have hsize : list.size = 0 ↔ elms = [] := by
    rw [hat.size, Nat.cast_eq_zero, List.length_eq_zero_iff]
    exact hat.nil_iff
  have htail : list.tail = none ↔ elms = [] := by
    rw [hat.tail, List.getLast?_eq_none_iff]
    exact hat.nil_iff
  refine ⟨h, htail.trans hhead.symm, hhead.trans hsize.symm, ?_, ?_, ?_⟩
  · obtain ⟨list', hlist', -⟩ := hpop
    exact ⟨list', hlist'⟩
  · intro κ elm1 cmp fuel hfuel
    exact findElement_represents h hfuel
  · intro addr newElement hfresh
    obtain ⟨list', hlist', -⟩ := insertElement_represents h hfresh newElement
    rw [hlist']
    rfl

/-- **Every call of a queue** does to the elements what it is to do. -/
theorem queueOpStep_represents {o : QueueOp κ α} (h : Represents list elms) (ho : queueOpStep list o = some list') :
    Represents list' (o.apply elms) := by
  cases o with
  | insert addr newElement =>
    have hfresh : list.node addr = none := by
      by_contra hused
      rw [queueOpStep, insertElement, if_pos (Option.isSome_iff_ne_none.2 hused)] at ho
      cases ho
    obtain ⟨list'', hlist'', hrep⟩ := insertElement_represents h hfresh newElement
    obtain rfl := Option.some.inj (hlist''.symm.trans ho)
    exact hrep
  | pop =>
    obtain ⟨list'', hlist'', hrep⟩ := popElement_represents h
    rw [queueOpStep, hlist''] at ho
    obtain rfl := Option.some.inj ho
    exact hrep
  | find fuel elm1 cmp =>
    obtain ⟨-, -, rfl⟩ := Option.map_eq_some_iff.1 ho
    exact h

/-- **LinkedList is a FIFO queue.** Whatever is called, in every state: the list in memory is the queue of the elements
inserted and not yet popped, oldest first, and each of the next calls does what it is for. -/
theorem list_is_queue (ops : List (QueueOp κ α)) :
    EveryState queueCall (fun x => IsQueue x.1 x.2) (createList, []) ops := by
  refine everyState_of_inv queueCall (I := fun x => Represents x.1 x.2) ?_ ?_ createList_represents ops
  · intro x o y hx hy
    obtain ⟨list', hlist', rfl⟩ := Option.map_eq_some_iff.1 hy
    exact queueOpStep_represents hx hlist'
  · intro x hx
    exact isQueue_of_represents hx

/-- the server's searches, which are of elements -/
theorem findElement_mappings {mappings : List Mapping} {list : LinkedList Mapping} (h : Represents list mappings)
    {cmp : SearchMap → Pointed Mapping → ℤ} (hcmp : ∀ s m, cmp s (.elm m) = cmpMaps s m) (s : SearchMap) {fuel : ℕ}
    (hfuel : mappings.length ≤ fuel) :
    findElement fuel s cmp list = some (NatServer.findElement cmpMaps s mappings) := by
  rw [findElement_represents h hfuel, findElement_eq_find?]
  congr 2
  funext m
  simp only [hcmp, Nat.cast_eq_zero]

/-! ## removeElement -/

inductive ListOp (κ α : Type) where
  | queue (o : QueueOp κ α)
  | remove (fuel : ℕ) (elm1 : κ) (cmp : κ → Pointed α → ℤ)

def listStep (list : LinkedList α) : ListOp κ α → Option (LinkedList α)
  | .queue o => queueOpStep list o
  | .remove fuel elm1 cmp => (removeElement fuel elm1 cmp list).map Prod.snd

section Removal

variable (fuel : ℕ) (elm1 : κ) (cmp : κ → Pointed α → ℤ)

/-- the element that findElement finds is returned and taken out, all others stay in order; if there is none, NULL is
returned and nothing changes -/
def RemovesExactly (list list' : LinkedList α) : Prop :=
  ∃ elms ret, Represents list elms ∧ removeElement fuel elm1 cmp list = some (ret, list') ∧
    (∀ rounds, elms.length ≤ rounds → findElement rounds elm1 cmp list = some ret) ∧
    Represents list' (elms.eraseP fun elm => cmp elm1 (.elm elm) = 0) ∧ (ret = none → list' = list)

/-- no node of the list matches, and no element in one -/
def NothingMatches (list : LinkedList α) : Prop :=
  ∀ rounds, ∀ addr ∈ walk list.nextAt rounds list.head,
    cmp elm1 (.node addr) ≠ 0 ∧ ∀ elm ∈ list.elmAt addr, cmp elm1 (.elm elm) ≠ 0

/-- the first node matches, so does the element in it, and it is not the only one -/
def FirstMatches (list : LinkedList α) : Prop :=
  ∃ addr node, list.head = some addr ∧ list.node addr = some node ∧ cmp elm1 (.node addr) = 0 ∧
    cmp elm1 (.elm node.elm) = 0 ∧ node.next ≠ none

end Removal

variable {fuel : ℕ} {elm1 : κ} {cmp : κ → Pointed α → ℤ}

/-- a node of the list, and the elements that it comes after -/
theorem At.node {addrs : List ℕ} (h : At list elms addrs) :
    ∀ addr ∈ addrs, ∃ node, list.node addr = some node ∧ node.elm ∈ elms := by
  intro addr haddr
  have hmem : list.elmAt addr ∈ elms.map some := h.elms ▸ List.mem_map_of_mem haddr
  obtain ⟨elm, helm, heq⟩ := List.mem_map.1 hmem
  obtain ⟨node, hnode, rfl⟩ := Option.map_eq_some_iff.1 heq.symm
  exact ⟨node, hnode, helm⟩

theorem nothingMatches_iff (h : Represents list elms) : NothingMatches elm1 cmp list ↔
    (∀ rounds, ∀ addr ∈ walk list.nextAt rounds list.head, cmp elm1 (.node addr) ≠ 0) ∧
      ∀ elm ∈ elms, cmp elm1 (.elm elm) ≠ 0 := by
  obtain ⟨addrs, h⟩ := h
  refine ⟨?_, ?_⟩
  · intro hnone
    refine ⟨fun rounds addr haddr => (hnone rounds addr haddr).1, ?_⟩
    intro elm helm
    have hmem : some elm ∈ addrs.map list.elmAt := h.elms ▸ List.mem_map_of_mem helm
    obtain ⟨addr, haddr, heq⟩ := List.mem_map.1 hmem
    rw [← walk_eq h.links le_rfl] at haddr
    exact (hnone _ addr haddr).2 elm heq
  · intro ⟨hnodes, helms⟩ rounds addr haddr
    refine ⟨hnodes rounds addr haddr, ?_⟩
    intro elm heq
    rw [walk_eq_take h.links] at haddr
    obtain ⟨node, hnode, hmem⟩ := h.node addr (List.mem_of_mem_take haddr)
    rw [elmAt, hnode, Option.map_some, Option.mem_some_iff] at heq
    exact helms elm (heq ▸ hmem)

/-- the list behind a removed node -/
theorem links_removed {addr : ℕ} {pre post : List ℕ} {node : Node α} (h : At list elms (pre ++ addr :: post))
    (hnode : list.node addr = some node) (tail : Option ℕ) (size : ℤ) :
    Links (nextAt ⟨Function.update list.node addr none, node.next, tail, size⟩) node.next post := by
  have hlinks := h.links.drop
  simp only [nextAt, hnode, Option.bind_some] at hlinks
  apply hlinks.congr
  intro i hi
  have hne : i ≠ addr := by
    rintro rfl
    exact (List.nodup_cons.1 (List.nodup_append.1 h.nodup).2.1).1 hi
  exact (nextAt_update_of_ne hne none _ _ _).1

/-- a right removal of an element is one of the first of at least two -/
theorem first_of_removed {addr : ℕ} {pre post : List ℕ} {node : Node α} (h : At list elms (pre ++ addr :: post))
    (hnode : list.node addr = some node) (hcmp : cmp elm1 (.node addr) = 0)
    (hfound : elms.find? (fun elm => cmp elm1 (.elm elm) = 0) = some node.elm)
    (hrest : Represents ⟨Function.update list.node addr none, node.next, list.tail, list.size - 1⟩
      (elms.eraseP fun elm => cmp elm1 (.elm elm) = 0)) : FirstMatches elm1 cmp list := by
  obtain ⟨addrs, hrest⟩ := hrest
  obtain rfl : addrs = post := hrest.links.unique (links_removed h hnode _ _)
  have hmatch : cmp elm1 (.elm node.elm) = 0 := by simpa using List.find?_some hfound
  -- one node less is left, so there was none in front
  have hpre : pre = [] := by
    have hsize := h.size
    have hsize' : list.size - 1 = addrs.length := hrest.size
    rw [hsize, List.length_append, List.length_cons] at hsize'
    exact List.length_eq_zero_iff.1 (by omega)
  subst hpre
  -- the tail was not touched, so it is not the node that is gone
  have hne : addrs ≠ [] := by
    rintro rfl
    have htail : list.tail = some addr := h.tail
    have htail' : list.tail = none := hrest.tail
    rw [htail] at htail'
    cases htail'
  refine ⟨addr, node, h.links.head, hnode, hcmp, hmatch, ?_⟩
  intro hnext
  have hlinks : Links _ node.next addrs := hrest.links
  rw [hnext] at hlinks
  cases addrs with
  | nil => exact hne rfl
  | cons i addrs => simp at hlinks

/-- such a removal is a popElement -/
theorem removed_first (h : Represents list elms) (hfirst : FirstMatches elm1 cmp list) (fuel : ℕ) :
    ∃ elm list', removeElement (fuel + 1) elm1 cmp list = some (some elm, list') ∧ Represents list' elms.tail ∧
      elms.head? = some elm ∧ cmp elm1 (.elm elm) = 0 := by
  obtain ⟨addr, node, hhead, hnode, hcmp, hmatch, hnext⟩ := hfirst
  obtain ⟨list', hpop, hrep⟩ := popElement_represents h
  have helm : elms.head? = some node.elm := by
    rw [← (head_represents h).2, headElm, hhead, Option.bind_some, hnode, Option.map_some]
  have hsize : list.size ≠ 0 ∧ list.size ≠ 1 := by
    obtain ⟨addrs, hat⟩ := h
    have hlinks := hat.links
    rw [hat.size]
    rcases addrs with - | ⟨i, - | ⟨j, addrs⟩⟩
    · rw [hhead] at hlinks
      simp at hlinks
    · rw [hhead, links_cons, Option.some.injEq, links_nil] at hlinks
      obtain ⟨rfl, hlinks⟩ := hlinks
      simp only [nextAt, hnode, Option.bind_some] at hlinks
      exact absurd hlinks hnext
    · simp only [List.length_cons]
      omega
  simp only [popElement, if_neg hsize.1, if_neg hsize.2, hhead, hnode, Option.bind_some, Option.map_some,
    Option.some.injEq, Prod.mk.injEq] at hpop
  obtain ⟨-, rfl⟩ := hpop
  refine ⟨node.elm, _, ?_, hrep, helm, hmatch⟩
  rw [removeElement, hhead, removeFrom, hnode, Option.bind_some, if_pos hcmp]

theorem exact_of_nothing {ret : Option α} (h : Represents list elms)
    (hremove : removeElement fuel elm1 cmp list = some (ret, list')) (hnothing : NothingMatches elm1 cmp list) :
    RemovesExactly fuel elm1 cmp list list' := by
  obtain ⟨hnodes, helms⟩ := (nothingMatches_iff h).1 hnothing
  obtain ⟨addrs, hat⟩ := id h
  rcases removeFrom_cases hat.links hremove with ⟨-, rfl, rfl⟩ | ⟨pre, addr, post, node, rfl, hcmp, -⟩
  · have hnone : elms.find? (fun elm => cmp elm1 (.elm elm) = 0) = none :=
      List.find?_eq_none.2 fun elm helm => by simpa using helms elm helm
    refine ⟨elms, none, h, hremove, ?_, ?_, fun _ => rfl⟩
    · intro rounds hrounds
      rw [findElement_represents h hrounds, hnone]
    · rwa [List.eraseP_of_forall_not fun elm helm => by simpa using helms elm helm]
  · apply absurd hcmp
    apply hnodes (pre ++ addr :: post).length addr
    rw [walk_eq hat.links le_rfl]
    simp

theorem exact_of_first {ret : Option α} (h : Represents list elms)
    (hremove : removeElement fuel elm1 cmp list = some (ret, list')) (hfirst : FirstMatches elm1 cmp list) :
    RemovesExactly fuel elm1 cmp list list' := by
  obtain ⟨addr, node, hhead, -⟩ := id hfirst
  cases fuel with
  | zero => simp [removeElement, hhead, removeFrom] at hremove
  | succ fuel =>
    obtain ⟨elm, list', hremove', hrep, helm, hmatch⟩ := removed_first h hfirst fuel
    obtain ⟨rfl, rfl⟩ := Prod.mk.inj (Option.some.inj (hremove.symm.trans hremove'))
    obtain ⟨rest, rfl⟩ : ∃ rest, elms = elm :: rest := by
      cases elms with
      | nil => cases helm
      | cons e rest => exact ⟨rest, by rw [Option.some.inj helm]⟩
    refine ⟨elm :: rest, some elm, h, hremove, ?_, ?_, fun hnone => absurd hnone (Option.some_ne_none elm)⟩
    · intro rounds hrounds
      rw [findElement_represents h hrounds, List.find?_cons_of_pos (by simpa using hmatch)]
    · rwa [List.eraseP_cons_of_pos (by simpa using hmatch)]

/-- **When a removal is right.** -/
theorem removesExactly_iff (h : Represents list elms) (hstep : listStep list (.remove fuel elm1 cmp) = some list') :
    RemovesExactly fuel elm1 cmp list list' ↔ NothingMatches elm1 cmp list ∨ FirstMatches elm1 cmp list := by
  obtain ⟨⟨ret, list''⟩, hremove, rfl⟩ := Option.map_eq_some_iff.1 hstep
  refine ⟨?_, ?_⟩
  · rintro ⟨elms', ret', hrep, hremove', hfind, hrest, -⟩
    obtain ⟨rfl, -⟩ := Prod.mk.inj (Option.some.inj (hremove.symm.trans hremove'))
    have hfound := hfind elms'.length le_rfl
    rw [findElement_represents hrep le_rfl, Option.some.injEq] at hfound
    obtain ⟨addrs, hat⟩ := id hrep
    rcases removeFrom_cases hat.links hremove with
      ⟨hnodes, rfl, -⟩ | ⟨pre, addr, post, node, rfl, hcmp, hnode, rfl, rfl⟩
    · left
      refine (nothingMatches_iff hrep).2 ⟨?_, ?_⟩
      · intro rounds addr haddr
        rw [walk_eq_take hat.links] at haddr
        exact hnodes addr (List.mem_of_mem_take haddr)
      · intro elm helm
        simpa using List.find?_eq_none.1 hfound elm helm
    · exact Or.inr (first_of_removed hat hnode hcmp hfound hrest)
  · rintro (hnothing | hfirst)
    · exact exact_of_nothing h hremove hnothing
    · exact exact_of_first h hremove hfirst

/-! ## Runs -/

/-- what the step of a run is to do -/
def RemovalRight (list : LinkedList α) : ListOp κ α → LinkedList α → Prop
  | .queue _, _ => True
  | .remove fuel elm1 cmp, list' => RemovesExactly fuel elm1 cmp list list'

/-- nothing matches, or the first of at least two does -/
def RemovalClear (list : LinkedList α) : ListOp κ α → Prop
  | .queue _ => True
  | .remove _ elm1 cmp => NothingMatches elm1 cmp list ∨ FirstMatches elm1 cmp list

theorem represents_of_right {o : ListOp κ α} (h : ∃ elms, Represents list elms) (ho : listStep list o = some list')
    (hright : RemovalRight list o list') : ∃ elms, Represents list' elms := by
  obtain ⟨elms, h⟩ := h
  cases o with
  | queue o => exact ⟨_, queueOpStep_represents h ho⟩
  | remove fuel elm1 cmp =>
    obtain ⟨elms', ret, -, -, -, hrest, -⟩ := hright
    exact ⟨_, hrest⟩

/-- **All removals of a run are right**, exactly when each finds nothing to match, or the first of at least two to match
as a node and as an element. -/
theorem removals_exact_iff (ops : List (ListOp κ α)) :
    EveryStep listStep RemovalRight (createList : LinkedList α) ops ↔
      EveryStep listStep (fun list o _ => RemovalClear list o) createList ops := by
  refine everyStep_iff listStep (I := fun list => ∃ elms, Represents list elms) ?_ ⟨[], createList_represents⟩ ops
  intro list o list' h ho
  refine ⟨?_, represents_of_right h ho⟩
  obtain ⟨elms, h⟩ := h
  cases o with
  | queue o => exact Iff.rfl
  | remove fuel elm1 cmp => exact removesExactly_iff h ho

/-! ## A removal that is not right -/

/-- a comparison of pointers -/
def samePointer (elm1 : ℕ) (elm2 : Pointed ℕ) : ℤ := if elm2 = .elm elm1 then 0 else 1

/-- a comparison to which everything is equal -/
def anything (_ : ℕ) (_ : Pointed ℕ) : ℤ := 0

/-- **It finds but does not remove**: of a list of one element, findElement finds the element and removeElement returns
NULL. And where removeElement does remove the only element, the tail stays, and the next insertion writes to freed
memory. -/
theorem finds_but_does_not_remove :
    ((insertElement 100 7 createList).bind fun list =>
        (findElement 1 7 samePointer list).map fun found => (found, (removeElement 1 7 samePointer list).map Prod.fst)) =
      some (some 7, some none) ∧
    run listStep createList [.queue (.insert 100 7), .remove 1 7 anything, .queue (.insert 200 8)] = none ∧
    ¬ EveryStep listStep RemovalRight createList [.queue (.insert 100 7), .remove 1 7 samePointer] := by
  refine ⟨by decide, rfl, ?_⟩
  intro h
  obtain ⟨elms, ret, -, hremove, hfind, -⟩ := h [.queue (.insert 100 7)] _ (List.prefix_refl _) _ _ rfl rfl
  have hret : none = ret := (Prod.mk.inj (Option.some.inj hremove)).1
  have hfound : some 7 = ret := Option.some.inj (hfind (elms.length + 1) (Nat.le_succ _))
  rw [← hret] at hfound
  cases hfound

end NetSec.NatServer.LinkedList
