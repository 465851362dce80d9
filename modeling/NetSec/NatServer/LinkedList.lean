/-
The server's list (NAT/LinkedList.c): `createList`, `insertElement`, `removeElement`, `popElement`, `findElement`.

Nodes lie in memory by address; the list has a head, a tail and a size, which the code keeps apart: an insertion looks
at the tail, the cleaner at the head, a removal at the size. `malloc` gives an address that is not in use; a step is
`none` when it reads a pointer that is NULL or has been freed. findElement and removeElement look at so many nodes at
most: `none` also when they are not done by then. A comparison is called with a `void*`: findElement hands it the
element of a node, removeElement the node.

- `Represents`: the nodes from the head on hold these elements, the tail is the last of them, the size their number;
- `createList_represents`, `insertElement_represents`, `popElement_represents`: the operations on a represented list
  read no bad pointer and are `[]`, `++ [elm]` and taking off the head;
- `head_represents`: the head is NULL exactly when there is no element, otherwise its node holds the first;
- `findElement_represents`: findElement gives the first element on which the comparison gives 0;
- `removeFrom_cases`: what removeElement does: nothing, or it frees a node on which the comparison gives 0 and makes
  what follows the whole list.
-/
import NetSec.Core.LinkedCells

namespace NetSec.NatServer

open NetSec.LinkedCells

variable {α : Type}

structure Node (α : Type) where
  elm : α
  next : Option ℕ

structure LinkedList (α : Type) where
  /-- the nodes in memory -/
  node : ℕ → Option (Node α)
  head : Option ℕ
  tail : Option ℕ
  size : ℤ

namespace LinkedList

def createList : LinkedList α := ⟨fun _ => none, none, none, 0⟩

/-- `addr` is what `malloc` returns for the new node -/
def insertElement (addr : ℕ) (newElement : α) (list : LinkedList α) : Option (LinkedList α) :=
  if (list.node addr).isSome then none
  else
    let node := Function.update list.node addr (some ⟨newElement, none⟩)
    match list.tail with
    | none => some ⟨node, some addr, some addr, list.size + 1⟩
    | some tail =>
      (list.node tail).map fun last =>
        ⟨Function.update node tail (some { last with next := some addr }), list.head, some addr, list.size + 1⟩

/-- the removed element, NULL if the list is empty; the node is freed -/
def popElement (list : LinkedList α) : Option (Option α × LinkedList α) :=
  if list.size = 0 then some (none, list)
  else
    list.head.bind fun addr => (list.node addr).map fun head =>
      let node := Function.update list.node addr none
      if list.size = 1 then (some head.elm, ⟨node, none, none, list.size - 1⟩)
      else (some head.elm, ⟨node, head.next, list.tail, list.size - 1⟩)

/-- what a comparison is given a pointer to -/
inductive Pointed (α : Type) where
  | elm (elm : α)
  | node (addr : ℕ)
deriving DecidableEq

/-- the loop of findElement, from the node at `head` on -/
def findFrom {κ : Type} (elm1 : κ) (cmp : κ → Pointed α → ℤ) (list : LinkedList α) : ℕ → Option ℕ → Option (Option α)
  | _, none => some none
  | 0, some _ => none
  | fuel + 1, some head =>
    (list.node head).bind fun node =>
      if cmp elm1 (.elm node.elm) = 0 then some (some node.elm) else findFrom elm1 cmp list fuel node.next

/-- the element found, NULL if there is none -/
def findElement {κ : Type} (fuel : ℕ) (elm1 : κ) (cmp : κ → Pointed α → ℤ) (list : LinkedList α) : Option (Option α) :=
  findFrom elm1 cmp list fuel list.head

/-- the loop of removeElement, from the node at `head` on -/
def removeFrom {κ : Type} (elm1 : κ) (cmp : κ → Pointed α → ℤ) (list : LinkedList α) :
    ℕ → Option ℕ → Option (Option α × LinkedList α)
  | _, none => some (none, list)
  | 0, some _ => none
  | fuel + 1, some head =>
    (list.node head).bind fun node =>
      -- the comparison gets the node, and the list begins behind it
      if cmp elm1 (.node head) = 0 then
        some (some node.elm, ⟨Function.update list.node head none, node.next, list.tail, list.size - 1⟩)
      else removeFrom elm1 cmp list fuel node.next

/-- the removed element, NULL if there is none; its node is freed -/
def removeElement {κ : Type} (fuel : ℕ) (elm1 : κ) (cmp : κ → Pointed α → ℤ) (list : LinkedList α) :
    Option (Option α × LinkedList α) := removeFrom elm1 cmp list fuel list.head

/-- `list->head->elm` -/
def headElm (list : LinkedList α) : Option α := (list.head.bind list.node).map Node.elm

/-! ## What a list holds -/

def nextAt (list : LinkedList α) (addr : ℕ) : Option ℕ := (list.node addr).bind Node.next

def elmAt (list : LinkedList α) (addr : ℕ) : Option α := (list.node addr).map Node.elm

/-- the nodes of a list that holds these elements are at these addresses -/
structure At (list : LinkedList α) (elms : List α) (addrs : List ℕ) : Prop where
  links : Links list.nextAt list.head addrs
  nodup : addrs.Nodup
  tail : list.tail = addrs.getLast?
  size : list.size = addrs.length
  elms : addrs.map list.elmAt = elms.map some

def Represents (list : LinkedList α) (elms : List α) : Prop := ∃ addrs, At list elms addrs

variable {list : LinkedList α} {elms : List α}

theorem createList_represents : Represents (createList : LinkedList α) [] :=
  ⟨[], ⟨by simp [createList], List.nodup_nil, rfl, rfl, rfl⟩⟩

theorem At.nil_iff {addrs : List ℕ} (h : At list elms addrs) : addrs = [] ↔ elms = [] := by
  have hlen := congrArg List.length h.elms
  simp only [List.length_map] at hlen
  rw [← List.length_eq_zero_iff, ← List.length_eq_zero_iff, hlen]

/-- the first address and the node there -/
theorem At.cons {elm : α} {rest : List α} {addrs : List ℕ} (h : At list (elm :: rest) addrs) :
    ∃ addr tail head, addrs = addr :: tail ∧ list.head = some addr ∧ list.node addr = some head ∧ head.elm = elm := by
  cases addrs with
  | nil => simpa using h.elms
  | cons addr tail =>
    have helm := h.elms
    simp only [List.map_cons, List.cons.injEq, elmAt, Option.map_eq_some_iff] at helm
    obtain ⟨⟨head, hnode, helm⟩, -⟩ := helm
    exact ⟨addr, tail, head, rfl, h.links.head, hnode, helm⟩

/-- **The head.** -/
theorem head_represents (h : Represents list elms) :
    (list.head = none ↔ elms = []) ∧ list.headElm = elms.head? := by
  obtain ⟨addrs, h⟩ := h
  cases elms with
  | nil =>
    have hnil := h.links
    rw [h.nil_iff.2 rfl, links_nil] at hnil
    simp [headElm, hnil]
  | cons elm rest =>
    obtain ⟨addr, tail, head, -, hhead, hnode, helm⟩ := h.cons
    simp [headElm, hhead, hnode, helm]

/-- links and elements at other addresses than a changed one -/
theorem nextAt_update_of_ne {addr i : ℕ} (hne : i ≠ addr) (n : Option (Node α)) (p q : Option ℕ) (z : ℤ) :
    nextAt ⟨Function.update list.node addr n, p, q, z⟩ i = list.nextAt i ∧
      elmAt ⟨Function.update list.node addr n, p, q, z⟩ i = list.elmAt i := by
  simp only [nextAt, elmAt, Function.update_of_ne hne, and_self]

/-- **A removal takes the head off**, and gives NULL on the empty list. -/
theorem popElement_represents (h : Represents list elms) :
    ∃ list', popElement list = some (elms.head?, list') ∧ Represents list' elms.tail := by
  obtain ⟨addrs, h⟩ := h
  cases elms with
  | nil =>
    have hsize : list.size = 0 := by rw [h.size, h.nil_iff.2 rfl]; rfl
    exact ⟨list, by simp [popElement, hsize], addrs, h⟩
  | cons elm rest =>
    obtain ⟨addr, addrs, head, rfl, hhead, hnode, helm⟩ := h.cons
    have hsize : list.size = addrs.length + 1 := by rw [h.size]; simp
    have hne : list.size ≠ 0 := by omega
    have hfree : ∀ i ∈ addrs, i ≠ addr := by
      intro i hi heq
      exact (List.nodup_cons.1 h.nodup).1 (heq ▸ hi)
    have htail := (links_cons.1 h.links).2
    simp only [nextAt, hnode, Option.bind_some] at htail
    have helms := (List.cons.inj h.elms).2
    by_cases hone : list.size = 1
    · obtain rfl : addrs = [] := List.length_eq_zero_iff.1 (by omega)
      refine ⟨_, by simp [popElement, hhead, hnode, helm, hone]; rfl, [], ?_⟩
      exact ⟨links_nil.2 rfl, List.nodup_nil, rfl, rfl, helms⟩
    · refine ⟨_, by simp [popElement, hhead, hnode, helm, hone, hne]; rfl, addrs, ?_⟩
      refine ⟨htail.congr ?_, (List.nodup_cons.1 h.nodup).2, ?_, by simp [hsize], ?_⟩
      · intro i hi
        exact (nextAt_update_of_ne (hfree i hi) none _ _ _).1
      · show list.tail = _
        rw [h.tail]
        apply List.getLast?_cons_of_ne_nil
        rintro rfl
        simp [hsize] at hone
      · show _ = rest.map some
        rw [← helms]
        apply List.map_congr_left
        intro i hi
        exact (nextAt_update_of_ne (hfree i hi) none _ _ _).2

/-- **An insertion appends**, wherever the new node lies. -/
theorem insertElement_represents {addr : ℕ} (h : Represents list elms) (hfresh : list.node addr = none)
    (newElement : α) : ∃ list', insertElement addr newElement list = some list' ∧
      Represents list' (elms ++ [newElement]) := by
  obtain ⟨addrs, h⟩ := h
  have hnew : ∀ i ∈ addrs, i ≠ addr := by
    intro i hi heq
    have hmem : list.elmAt i ∈ elms.map some := by rw [← h.elms]; exact List.mem_map_of_mem hi
    rw [heq, elmAt, hfresh] at hmem
    simp at hmem
  rcases List.eq_nil_or_concat addrs with rfl | ⟨pre, tail, rfl⟩
  · obtain rfl := h.nil_iff.1 rfl
    have htail : list.tail = none := h.tail
    refine ⟨_, by simp only [insertElement, hfresh, htail]; rfl, [addr], ?_⟩
    refine ⟨?_, List.nodup_singleton _, rfl, ?_, by simp [elmAt]⟩
    · simp [nextAt]
    · show list.size + 1 = _
      rw [h.size]
      rfl
  · simp only [List.concat_eq_append] at h hnew ⊢
    have htail : list.tail = some tail := by rw [h.tail]; simp
    have hmem : list.elmAt tail ∈ elms.map some := by
      rw [← h.elms]; exact List.mem_map_of_mem (by simp)
    obtain ⟨e, -, he⟩ := List.mem_map.1 hmem
    rw [elmAt, eq_comm, Option.map_eq_some_iff] at he
    obtain ⟨last, hlast, -⟩ := he
    have hta : tail ≠ addr := hnew tail (by simp)
    have hpre : ∀ i ∈ pre, i ≠ tail := by
      intro i hi heq
      have hnodup := (List.nodup_append.1 h.nodup).2.2 i hi tail (by simp)
      exact hnodup heq
    refine ⟨_, by simp only [insertElement, hfresh, htail, hlast]; rfl, pre ++ [tail] ++ [addr], ?_⟩
    refine ⟨?_, ?_, ?_, ?_, ?_⟩
    · rw [List.append_assoc]
      apply h.links.snoc
      · simp [nextAt]
      · simp [nextAt, Function.update_of_ne hta.symm]
      · intro i hi
        simp only [nextAt, Function.update_of_ne (hpre i hi), Function.update_of_ne (hnew i (by simp [hi]))]
    · refine List.nodup_append.2 ⟨h.nodup, List.nodup_singleton _, ?_⟩
      intro i hi j hj
      rw [List.mem_singleton.1 hj]
      exact hnew i hi
    · simp
    · have hlen : (pre ++ [tail] ++ [addr]).length = (pre ++ [tail]).length + 1 := List.length_append
      show list.size + 1 = _
      rw [h.size, hlen, Nat.cast_succ]
    · have helms : (elms ++ [newElement]).map some = (pre ++ [tail]).map list.elmAt ++ [some newElement] := by
        rw [List.map_append, ← h.elms]
        rfl
      rw [helms, List.map_append]
      congr 1
      · apply List.map_congr_left
        intro i hi
        by_cases hit : i = tail
        · subst hit
          simp [elmAt, hlast]
        · simp only [elmAt, Function.update_of_ne hit, Function.update_of_ne (hnew i hi)]
      · simp [elmAt, Function.update_of_ne hta.symm]

/-! ## Searching -/

section Search

variable {κ : Type} {elm1 : κ} {cmp : κ → Pointed α → ℤ}

/-- **The first match is found**, once there were rounds enough. -/
theorem findFrom_eq {addrs : List ℕ} {p : Option ℕ} (hlinks : Links list.nextAt p addrs)
    (helms : addrs.map list.elmAt = elms.map some) {fuel : ℕ} (hfuel : elms.length ≤ fuel) :
    findFrom elm1 cmp list fuel p = some (elms.find? fun elm => cmp elm1 (.elm elm) = 0) := by
  induction elms generalizing addrs p fuel with
  | nil =>
    obtain rfl : addrs = [] := by simpa using helms
    obtain rfl := links_nil.1 hlinks
    cases fuel <;> rfl
  | cons elm rest ih =>
    cases addrs with
    | nil => simp at helms
    | cons addr addrs =>
      obtain ⟨rfl, htail⟩ := links_cons.1 hlinks
      obtain ⟨helm, hrest⟩ := List.cons.inj helms
      obtain ⟨node, hnode, rfl⟩ := Option.map_eq_some_iff.1 helm
      cases fuel with
      | zero => simp at hfuel
      | succ fuel =>
        simp only [nextAt, hnode, Option.bind_some] at htail
        have hfound := ih htail hrest (Nat.le_of_succ_le_succ hfuel)
        rw [findFrom, hnode, Option.bind_some, hfound, List.find?_cons]
        by_cases hcmp : cmp elm1 (.elm node.elm) = 0
        · simp [hcmp]
        · simp [hcmp]

theorem findElement_represents (h : Represents list elms) {fuel : ℕ} (hfuel : elms.length ≤ fuel) :
    findElement fuel elm1 cmp list = some (elms.find? fun elm => cmp elm1 (.elm elm) = 0) := by
  obtain ⟨addrs, h⟩ := h
  exact findFrom_eq h.links h.elms hfuel

/-- **What removeElement does**, from any node on. -/
theorem removeFrom_cases {addrs : List ℕ} {p : Option ℕ} (hlinks : Links list.nextAt p addrs) {fuel : ℕ}
    {ret : Option α} {list' : LinkedList α} (hremove : removeFrom elm1 cmp list fuel p = some (ret, list')) :
    ((∀ addr ∈ addrs, cmp elm1 (.node addr) ≠ 0) ∧ ret = none ∧ list' = list) ∨
      ∃ pre addr post node, addrs = pre ++ addr :: post ∧ cmp elm1 (.node addr) = 0 ∧ list.node addr = some node ∧
        ret = some node.elm ∧
        list' = ⟨Function.update list.node addr none, node.next, list.tail, list.size - 1⟩ := by
  induction addrs generalizing p fuel with
  | nil =>
    obtain rfl := links_nil.1 hlinks
    rw [removeFrom, Option.some.injEq, Prod.mk.injEq] at hremove
    exact Or.inl ⟨nofun, hremove.1.symm, hremove.2.symm⟩
  | cons addr addrs ih =>
    obtain ⟨rfl, htail⟩ := links_cons.1 hlinks
    cases fuel with
    | zero => simp [removeFrom] at hremove
    | succ fuel =>
      rw [removeFrom, Option.bind_eq_some_iff] at hremove
      obtain ⟨node, hnode, hremove⟩ := hremove
      simp only [nextAt, hnode, Option.bind_some] at htail
      split_ifs at hremove with hcmp
      · simp only [Option.some.injEq, Prod.mk.injEq] at hremove
        exact Or.inr ⟨[], addr, addrs, node, rfl, hcmp, hnode, hremove.1.symm, hremove.2.symm⟩
      · rcases ih htail hremove with ⟨hall, hret, hlist⟩ | ⟨pre, addr', post, node', rfl, hfound⟩
        · exact Or.inl ⟨List.forall_mem_cons.2 ⟨hcmp, hall⟩, hret, hlist⟩
        · exact Or.inr ⟨addr :: pre, addr', post, node', rfl, hfound⟩

end Search

end LinkedList

end NetSec.NatServer
