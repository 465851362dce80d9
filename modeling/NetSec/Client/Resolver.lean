/-
The resolver's cache: resolve, remove_table_entry (client/dnsutils.c, lines 218-235 and 279-333; DNS_TABLE_ENTRY and
DNS_RESOLVER of client/include/dnsutils.h).

The entries ever allocated are `heap`, in the order of their allocation; a pointer is an index into it, NULL is `none`.
The lock is held from the scan to the insertion, so that one call is one step here. What query_dns would return is an
argument. A name is kept by its text: the callers' strings do not change.

`removeTableEntry` is the source's: of its four cases only one, the last entry of the list under its true predecessor,
unlinks an entry in the list; an entry in the middle only gets its own `prev` changed, and a removed head stays the
`prev` of the entry after it.

`Linked` is what survives of a doubly linked list: from head on, each entry was allocated before the one in front of it,
and the `prev` of an entry that is not the head points to the entry in front of it, or to an older one.
- `removeTableEntry_linked`: from a linked list, a removal takes at most the one entry off;
- `scan_linked`: a scan finds the first unexpired entry of the name, and takes only expired entries off;
- `insertEntry_linked`: a new entry comes in at the head.
-/
import NetSec.Core.LinkedCells
import NetSec.Core.Text
import NetSec.Core.TtlMap

namespace NetSec.Client

open NetSec.LinkedCells NetSec.TtlMap

/-! ## Model -/

structure DnsTableEntry where
  name : Text
  hexAddr : BitVec 32
  ttl : BitVec 32
  timestamp : ℤ
  next : Option ℕ
  prev : Option ℕ
deriving DecidableEq, Repr

structure DnsResolver where
  heap : List DnsTableEntry
  head : Option ℕ
deriving DecidableEq, Repr

def dnsInit : DnsResolver := ⟨[], none⟩

def DnsResolver.setNext (res : DnsResolver) (i : ℕ) (v : Option ℕ) : DnsResolver :=
  { res with heap := res.heap.modify i fun e => { e with next := v } }

def DnsResolver.setPrev (res : DnsResolver) (i : ℕ) (v : Option ℕ) : DnsResolver :=
  { res with heap := res.heap.modify i fun e => { e with prev := v } }

def removeTableEntry (res : DnsResolver) (entry : ℕ) : DnsResolver :=
  match res.heap[entry]? with
  | none => res
  | some e =>
    match e.next, e.prev with
    | some n, some _ => res.setPrev entry (some n)
    | none, some p => res.setNext p none
    | some n, none => { res with head := some n }
    | none, none => { res with head := none }

/-- `timestamp > i->timestamp + i->ttl` -/
def DnsTableEntry.expired (e : DnsTableEntry) (timestamp : ℤ) : Bool := e.timestamp + e.ttl.toNat < timestamp

/-- the loop of resolve, for at most so many entries: the entry found, and the table after it -/
def scan (timestamp : ℤ) (hostname : Text) : ℕ → Option ℕ → DnsResolver → Option DnsTableEntry × DnsResolver
  | 0, _, res => (none, res)
  | _ + 1, none, res => (none, res)
  | fuel + 1, some i, res =>
    match res.heap[i]? with
    | none => (none, res)
    | some e =>
      if e.expired timestamp then
        let res := removeTableEntry res i
        scan timestamp hostname fuel ((res.heap[i]?).bind DnsTableEntry.next) res
      else if hostname = e.name then (some e, res)
      else scan timestamp hostname fuel e.next res

/-- the new entry becomes the head -/
def insertEntry (hostname : Text) (hexAddr ttl : BitVec 32) (timestamp : ℤ) (res : DnsResolver) : DnsResolver :=
  let new := res.heap.length
  let linked := match res.head with
    | some h => res.setPrev h (some new)
    | none => res
  ⟨linked.heap ++ [⟨hostname, hexAddr, ttl, timestamp, res.head, none⟩], some new⟩

/-- one call; `answer` is the address and the TTL that query_dns would return, `none` when it fails -/
def resolve (timestamp : ℤ) (hostname : Text) (answer : Option (BitVec 32 × BitVec 32)) (res : DnsResolver) :
    Answer (BitVec 32) × DnsResolver :=
  match scan timestamp hostname res.heap.length res.head res with
  | (some e, res) => (.cached e.hexAddr, res)
  | (none, res) =>
    match answer with
    | none => (.failed, res)
    | some (hexAddr, ttl) => (.fetched hexAddr, insertEntry hostname hexAddr ttl timestamp res)

/-- what resolve returns -/
def sAddr : Answer (BitVec 32) → BitVec 32
  | .cached hexAddr => hexAddr
  | .fetched hexAddr => hexAddr
  | .failed => -1

/-! ## Reading the heap -/

def DnsResolver.next (res : DnsResolver) (i : ℕ) : Option ℕ := (res.heap[i]?).bind DnsTableEntry.next

def DnsResolver.prev (res : DnsResolver) (i : ℕ) : Option ℕ := (res.heap[i]?).bind DnsTableEntry.prev

/-- what an entry says, without its links -/
def DnsTableEntry.entry (e : DnsTableEntry) : Entry Text (BitVec 32) := ⟨e.name, e.hexAddr, e.timestamp, e.ttl.toNat⟩

/-- all entries ever inserted, oldest first -/
def DnsResolver.entries (res : DnsResolver) : List (Entry Text (BitVec 32)) := res.heap.map DnsTableEntry.entry

/-- the entries reachable from head, newest first -/
def DnsResolver.reachable (res : DnsResolver) : List ℕ := walk res.next res.heap.length res.head

theorem expired_eq_false {e : DnsTableEntry} {t : ℤ} : e.expired t = false ↔ e.entry.Live t := by
  simp [DnsTableEntry.expired, DnsTableEntry.entry, Entry.Live]

@[simp] theorem head_setPrev (res : DnsResolver) (i : ℕ) (v : Option ℕ) : (res.setPrev i v).head = res.head := rfl

@[simp] theorem length_setNext (res : DnsResolver) (i : ℕ) (v : Option ℕ) :
    (res.setNext i v).heap.length = res.heap.length := List.length_modify _ _ _

@[simp] theorem length_setPrev (res : DnsResolver) (i : ℕ) (v : Option ℕ) :
    (res.setPrev i v).heap.length = res.heap.length := List.length_modify _ _ _

/-- a change of the links of one cell shows in no field that it keeps -/
theorem map_modify {α β : Type} {f : α → α} {g : α → β} (l : List α) (i : ℕ) (h : ∀ a, g (f a) = g a) :
    (l.modify i f).map g = l.map g := by
  refine List.ext_getElem? fun j => ?_
  rw [List.getElem?_map, List.getElem?_map, List.getElem?_modify]
  cases l[j]? with
  | none => rfl
  | some a =>
    simp only [Option.map_eq_map, Option.map_some, Option.some.injEq]
    split_ifs
    · exact h a
    · rfl

/-- the same for a field read through a pointer -/
theorem bind_modify {α β : Type} {f : α → α} {g : α → Option β} (l : List α) (i j : ℕ) (h : ∀ a, g (f a) = g a) :
    ((l.modify i f)[j]?).bind g = (l[j]?).bind g := by
  rw [List.getElem?_modify]
  cases l[j]? with
  | none => rfl
  | some a =>
    simp only [Option.map_eq_map, Option.map_some, Option.bind_some]
    split_ifs
    · exact h a
    · rfl

theorem bind_modify_ne {α β : Type} {f : α → α} {g : α → Option β} (l : List α) {i j : ℕ} (h : j ≠ i) :
    ((l.modify i f)[j]?).bind g = (l[j]?).bind g := by
  rw [List.getElem?_modify_ne f l (Ne.symm h)]

@[simp] theorem entries_setNext (res : DnsResolver) (i : ℕ) (v : Option ℕ) :
    (res.setNext i v).entries = res.entries := map_modify _ _ fun _ => rfl

@[simp] theorem entries_setPrev (res : DnsResolver) (i : ℕ) (v : Option ℕ) :
    (res.setPrev i v).entries = res.entries := map_modify _ _ fun _ => rfl

@[simp] theorem next_setPrev (res : DnsResolver) (i : ℕ) (v : Option ℕ) : (res.setPrev i v).next = res.next :=
  funext fun _ => bind_modify _ _ _ fun _ => rfl

@[simp] theorem prev_setNext (res : DnsResolver) (i : ℕ) (v : Option ℕ) : (res.setNext i v).prev = res.prev :=
  funext fun _ => bind_modify _ _ _ fun _ => rfl

theorem next_setNext_ne (res : DnsResolver) {i j : ℕ} (h : j ≠ i) (v : Option ℕ) :
    (res.setNext i v).next j = res.next j := bind_modify_ne _ h

theorem prev_setPrev_ne (res : DnsResolver) {i j : ℕ} (h : j ≠ i) (v : Option ℕ) :
    (res.setPrev i v).prev j = res.prev j := bind_modify_ne _ h

theorem next_setNext_none (res : DnsResolver) (i : ℕ) : (res.setNext i none).next i = none := by
  unfold DnsResolver.next DnsResolver.setNext
  rw [List.getElem?_modify_eq]
  cases res.heap[i]? <;> rfl

theorem prev_setPrev_self {res : DnsResolver} {i : ℕ} (h : i < res.heap.length) (v : Option ℕ) :
    (res.setPrev i v).prev i = v := by
  unfold DnsResolver.prev DnsResolver.setPrev
  rw [List.getElem?_modify_eq, List.getElem?_eq_getElem h]
  rfl

theorem entries_getElem? (res : DnsResolver) (i : ℕ) : res.entries[i]? = (res.heap[i]?).map DnsTableEntry.entry :=
  List.getElem?_map

@[simp] theorem length_entries (res : DnsResolver) : res.entries.length = res.heap.length := List.length_map _

/-! ## Linked lists -/

/-- what `prev` of the entry `a` after `b` may be -/
def Back (res : DnsResolver) (b a : ℕ) : Prop := res.prev a = some b ∨ ∃ m < a, res.prev a = some m

/-- the entries from head on are `l` -/
structure Linked (res : DnsResolver) (l : List ℕ) : Prop where
  links : Links res.next res.head l
  older : l.Pairwise fun b a => a < b
  valid : ∀ i ∈ l, i < res.heap.length
  back : l.IsChain (Back res)

/-- `removeTableEntry` by cases on the two links -/
theorem removeTableEntry_cases {res : DnsResolver} {i : ℕ} (h : i < res.heap.length) :
    removeTableEntry res i =
      match res.next i, res.prev i with
      | some n, some _ => res.setPrev i (some n)
      | none, some p => res.setNext p none
      | some n, none => { res with head := some n }
      | none, none => { res with head := none } := by
  simp only [removeTableEntry, DnsResolver.next, DnsResolver.prev, List.getElem?_eq_getElem h, Option.bind_some]

/-- an entry that is not the head has a `prev` -/
theorem Linked.prev_ne_none {res : DnsResolver} {pre post : List ℕ} {i : ℕ} (h : Linked res (pre ++ i :: post))
    (hi : res.prev i = none) : pre = [] := by
  rcases pre.eq_nil_or_concat' with rfl | ⟨front, b, rfl⟩
  · rfl
  · have hback := h.back
    rw [List.append_assoc, List.singleton_append, List.isChain_append_cons_cons] at hback
    rcases hback.2.1 with hb | ⟨m, -, hm⟩
    · rw [hi] at hb
      cases hb
    · rw [hi] at hm
      cases hm

theorem Linked.next_lt {res : DnsResolver} {pre post : List ℕ} {i n : ℕ} (h : Linked res (pre ++ i :: post))
    (hn : res.next i = some n) : n < i := by
  have hlinks := h.links.drop
  rw [hn] at hlinks
  cases post with
  | nil => simp at hlinks
  | cons j post =>
    obtain rfl := Option.some.inj hlinks.head
    have holder := (List.pairwise_append.1 h.older).2.1
    exact (List.pairwise_cons.1 holder).1 n List.mem_cons_self

/-- the middle of the list: only the entry's own `prev` changes -/
theorem linked_setPrev {res : DnsResolver} {pre post : List ℕ} {i n : ℕ} (h : Linked res (pre ++ i :: post))
    (hn : res.next i = some n) : Linked (res.setPrev i (some n)) (pre ++ i :: post) := by
  refine ⟨by simpa using h.links, h.older, by simpa using h.valid, h.back.imp ?_⟩
  intro b a hba
  by_cases ha : a = i
  · subst ha
    have hlt : a < res.heap.length := h.valid a (by simp)
    exact Or.inr ⟨n, h.next_lt hn, prev_setPrev_self hlt _⟩
  · unfold Back
    rw [prev_setPrev_ne res ha]
    exact hba

/-- the end of the list, under a `prev` that is in it: that is the entry in front -/
theorem linked_setNext_mem {res : DnsResolver} {pre : List ℕ} {i p : ℕ} (h : Linked res (pre ++ [i]))
    (hp : res.prev i = some p) (hmem : p ∈ pre) : Linked (res.setNext p none) pre := by
  have holder := List.pairwise_append.1 h.older
  rcases pre.eq_nil_or_concat' with rfl | ⟨front, b, rfl⟩
  · cases hmem
  have hback := h.back
  rw [List.append_assoc, List.singleton_append, List.isChain_append_cons_cons] at hback
  have hpb : p = b := by
    rcases hback.2.1 with hb | ⟨m, hm, hpm⟩
    · rw [hp] at hb
      exact Option.some.inj hb
    · -- an older entry is not in front of the last one
      obtain rfl : p = m := Option.some.inj (hp.symm.trans hpm)
      have := holder.2.2 p hmem i (List.mem_singleton_self i)
      omega
  subst hpb
  have hlinks := h.links
  rw [List.append_assoc, List.singleton_append] at hlinks
  refine ⟨?_, holder.1, ?_, ?_⟩
  · apply hlinks.truncate (next_setNext_none res p)
    intro j hj
    have hlt := (List.pairwise_append.1 holder.1).2.2 j hj p (List.mem_singleton_self p)
    exact next_setNext_ne res (by omega) none
  · intro j hj
    rw [length_setNext]
    exact h.valid j (List.mem_append_left _ hj)
  · exact h.back.left_of_append.imp fun b a hba => by unfold Back; rw [prev_setNext]; exact hba

/-- the end of the list, under a `prev` that is not in it: nothing changes -/
theorem linked_setNext_not_mem {res : DnsResolver} {pre : List ℕ} {i p : ℕ} (h : Linked res (pre ++ [i]))
    (hn : res.next i = none) (hmem : p ∉ pre) : Linked (res.setNext p none) (pre ++ [i]) := by
  refine ⟨h.links.congr ?_, h.older, by simpa using h.valid, ?_⟩
  · intro j hj
    by_cases hjp : j = p
    · subst hjp
      obtain rfl : j = i := by simpa [hmem] using hj
      rw [next_setNext_none, hn]
    · exact next_setNext_ne res hjp none
  · exact h.back.imp fun b a hba => by unfold Back; rw [prev_setNext]; exact hba

/-- **A removal takes at most its entry off.** And the scan goes on behind it. -/
theorem removeTableEntry_linked {res : DnsResolver} {pre post : List ℕ} {i : ℕ} (h : Linked res (pre ++ i :: post)) :
    ∃ pre', (pre' = pre ∨ pre' = pre ++ [i]) ∧ Linked (removeTableEntry res i) (pre' ++ post) ∧
      Links (removeTableEntry res i).next ((removeTableEntry res i).next i) post := by
  have hafter := h.links.drop
  have hlt : i < res.heap.length := h.valid i (by simp)
  rw [removeTableEntry_cases hlt]
  cases hn : res.next i with
  | some n =>
    cases hp : res.prev i with
    | some p =>
      have hlinked := linked_setPrev h hn
      exact ⟨pre ++ [i], Or.inr rfl, by simpa using hlinked, by simpa [hn] using hafter⟩
    | none =>
      obtain rfl := h.prev_ne_none hp
      have hhead := hafter
      rw [hn] at hhead
      exact ⟨[], Or.inl rfl, ⟨hhead, h.older.of_cons, fun j hj => h.valid j (List.mem_cons_of_mem _ hj), h.back.tail⟩,
        hafter⟩
  | none =>
    rw [hn] at hafter
    cases post with
    | cons j post => simp at hafter
    | nil =>
      cases hp : res.prev i with
      | some p =>
        have hnext : (res.setNext p none).next i = none := by
          by_cases hip : i = p
          · rw [hip]
            exact next_setNext_none res p
          · rw [next_setNext_ne res hip, hn]
        by_cases hmem : p ∈ pre
        · exact ⟨pre, Or.inl rfl, by simpa using linked_setNext_mem h hp hmem, by simpa using hnext⟩
        · exact ⟨pre ++ [i], Or.inr rfl, by simpa using linked_setNext_not_mem h hn hmem, by simpa using hnext⟩
      | none =>
        obtain rfl := h.prev_ne_none hp
        exact ⟨[], Or.inl rfl, ⟨links_nil.2 rfl, List.Pairwise.nil, by simp, List.IsChain.nil⟩, links_nil.2 hn⟩

theorem entries_removeTableEntry (res : DnsResolver) (i : ℕ) : (removeTableEntry res i).entries = res.entries := by
  unfold removeTableEntry
  split
  · rfl
  · split
    · exact entries_setPrev _ _ _
    · exact entries_setNext _ _ _
    · rfl
    · rfl

/-! ## Scans and insertions -/

/-- what the entries at these places say -/
def DnsResolver.listed (res : DnsResolver) (l : List ℕ) : List (Entry Text (BitVec 32)) :=
  l.filterMap fun i => res.entries[i]?

theorem length_le_of_linked {res : DnsResolver} {l : List ℕ} (h : Linked res l) : l.length ≤ res.heap.length := by
  have hnodup : l.Nodup := h.older.imp fun hab => by omega
  have hsub : l ⊆ List.range res.heap.length := fun j hj => List.mem_range.2 (h.valid j hj)
  simpa using (hnodup.subperm hsub).length_le

/-- **What a scan does.** It finds the first unexpired entry of the name among those ahead of it, and takes only expired
entries off the list. -/
theorem scan_linked (t : ℤ) (hostname : Text) {fuel : ℕ} {cur : Option ℕ} {res : DnsResolver} (pre : List ℕ)
    {post : List ℕ} (hl : Linked res (pre ++ post)) (hcur : Links res.next cur post) (hfuel : post.length ≤ fuel) :
    ∃ l, Linked (scan t hostname fuel cur res).2 l ∧ l ⊆ pre ++ post ∧
      (∀ j ∈ pre ++ post, ∀ e, res.entries[j]? = some e → e.Live t → j ∈ l) ∧
      (scan t hostname fuel cur res).2.entries = res.entries ∧
      (scan t hostname fuel cur res).1.map DnsTableEntry.entry = lookup t hostname (res.listed post) := by
  induction post generalizing fuel cur res pre with
  | nil =>
    obtain rfl := links_nil.1 hcur
    have hscan : scan t hostname fuel none res = (none, res) := by cases fuel <;> rfl
    rw [hscan]
    exact ⟨pre ++ [], hl, List.Subset.refl _, fun j hj _ _ _ => hj, rfl, rfl⟩
  | cons i post ih =>
    obtain ⟨rfl, hnext⟩ := links_cons.1 hcur
    obtain ⟨fuel, rfl⟩ : ∃ f, fuel = f + 1 := ⟨fuel - 1, by simp at hfuel; omega⟩
    have hlt : i < res.heap.length := hl.valid i (by simp)
    have hheap : res.heap[i]? = some res.heap[i] := List.getElem?_eq_getElem hlt
    have hentry : res.entries[i]? = some res.heap[i].entry := by rw [entries_getElem?, hheap]; rfl
    have hlisted : ∀ l, res.listed (i :: l) = res.heap[i].entry :: res.listed l := by
      intro l
      simp only [DnsResolver.listed, List.filterMap_cons, hentry]
    simp only [scan, hheap]
    cases hexp : res.heap[i].expired t with
    | true =>
      -- the entry is removed, and the scan goes on from its `next`
      have hdead : ¬ res.heap[i].entry.Live t := by
        rw [← expired_eq_false, hexp]
        simp
      obtain ⟨pre', hpre', hlinked, hafter⟩ := removeTableEntry_linked hl
      have hentries := entries_removeTableEntry res i
      obtain ⟨l, h1, h2, h3, h4, h5⟩ := ih pre' hlinked hafter (by simpa using hfuel)
      refine ⟨l, h1, fun j hj => ?_, fun j hj e he hlive => ?_, h4.trans hentries, ?_⟩
      · have hmem := h2 hj
        rcases hpre' with rfl | rfl <;> simp only [List.mem_append, List.mem_cons, List.not_mem_nil, or_false] at hmem ⊢
        · tauto
        · tauto
      · have hji : j ≠ i := by
          rintro rfl
          rw [hentry] at he
          exact hdead (Option.some.inj he ▸ hlive)
        refine h3 j ?_ e (by rw [hentries]; exact he) hlive
        rcases hpre' with rfl | rfl <;> simp only [List.mem_append, List.mem_cons, List.not_mem_nil, or_false] at hj ⊢
        · tauto
        · tauto
      · have hsame : (removeTableEntry res i).listed post = res.listed post := by
          simp only [DnsResolver.listed, hentries]
        rw [if_pos rfl, hlisted, lookup, List.find?_cons_of_neg (by simp [hdead])]
        rw [hsame] at h5
        exact h5
    | false =>
      have hlive := expired_eq_false.1 hexp
      simp only [Bool.false_eq_true, if_false]
      by_cases hname : hostname = res.heap[i].name
      · rw [if_pos hname]
        refine ⟨pre ++ i :: post, hl, List.Subset.refl _, fun j hj _ _ _ => hj, rfl, ?_⟩
        rw [hlisted, lookup, List.find?_cons_of_pos (by simpa using ⟨hname.symm, hlive⟩)]
        rfl
      · rw [if_neg hname]
        have happend : pre ++ i :: post = (pre ++ [i]) ++ post := by simp
        have hcur' : Links res.next res.heap[i].next post := by simpa [DnsResolver.next, hheap] using hnext
        rw [happend] at hl ⊢
        obtain ⟨l, h1, h2, h3, h4, h5⟩ := ih (pre ++ [i]) hl hcur' (by simpa using hfuel)
        refine ⟨l, h1, h2, h3, h4, ?_⟩
        rw [hlisted, lookup, List.find?_cons_of_neg (by simpa using fun h => absurd h.symm hname)]
        exact h5

/-- a scan changes links only -/
theorem entries_scan (t : ℤ) (hostname : Text) (fuel : ℕ) (cur : Option ℕ) (res : DnsResolver) :
    (scan t hostname fuel cur res).2.entries = res.entries := by
  induction fuel generalizing cur res with
  | zero => rfl
  | succ fuel ih =>
    cases cur with
    | none => rfl
    | some i =>
      rw [scan]
      cases res.heap[i]? with
      | none => rfl
      | some e =>
        simp only
        split_ifs
        · exact (ih _ _).trans (entries_removeTableEntry res i)
        · rfl
        · exact ih _ _

/-- **What a whole scan does.** -/
theorem scan_head_linked (t : ℤ) (hostname : Text) {res : DnsResolver} {l : List ℕ} (h : Linked res l) :
    ∃ l', Linked (scan t hostname res.heap.length res.head res).2 l' ∧
      (∀ j ∈ l, ∀ e, res.entries[j]? = some e → e.Live t → j ∈ l') ∧
      (scan t hostname res.heap.length res.head res).2.entries = res.entries ∧
      (scan t hostname res.heap.length res.head res).1.map DnsTableEntry.entry = lookup t hostname (res.listed l) := by
  obtain ⟨l', hlinked, -, hkeep, hentries, hfound⟩ := scan_linked t hostname [] h h.links (length_le_of_linked h)
  exact ⟨l', hlinked, hkeep, hentries, hfound⟩

theorem entries_insertEntry (hostname : Text) (hexAddr ttl : BitVec 32) (t : ℤ) (res : DnsResolver) :
    (insertEntry hostname hexAddr ttl t res).entries = res.entries ++ [⟨hostname, hexAddr, t, ttl.toNat⟩] := by
  have hlinked : (match res.head with
      | some h => res.setPrev h (some res.heap.length)
      | none => res).entries = res.entries := by
    cases res.head with
    | none => rfl
    | some h => exact entries_setPrev _ _ _
  simp only [DnsResolver.entries] at hlinked
  simp only [insertEntry, DnsResolver.entries, List.map_append, List.map_cons, List.map_nil]
  rw [hlinked]
  rfl

theorem getLast?_insertEntry (hostname : Text) (hexAddr ttl : BitVec 32) (t : ℤ) (res : DnsResolver) :
    (insertEntry hostname hexAddr ttl t res).entries.getLast? = some ⟨hostname, hexAddr, t, ttl.toNat⟩ := by
  rw [entries_insertEntry, List.getLast?_concat]

/-- the list after an insertion, as far as the old entries' links go -/
theorem insertEntry_old (hostname : Text) (hexAddr ttl : BitVec 32) (t : ℤ) (res : DnsResolver) {j : ℕ}
    (hj : j < res.heap.length) : (insertEntry hostname hexAddr ttl t res).next j = res.next j ∧
      ((insertEntry hostname hexAddr ttl t res).prev j =
        if res.head = some j then some res.heap.length else res.prev j) := by
  cases hhead : res.head with
  | none =>
    simp only [insertEntry, hhead, DnsResolver.next, DnsResolver.prev, List.getElem?_append_left hj, reduceCtorEq,
      if_false, and_self]
  | some h =>
    have hlen : j < (res.setPrev h (some res.heap.length)).heap.length := by simpa using hj
    have hnext := congrFun (next_setPrev res h (some res.heap.length)) j
    simp only [DnsResolver.next] at hnext
    simp only [insertEntry, hhead, DnsResolver.next, DnsResolver.prev, List.getElem?_append_left hlen, hnext, true_and,
      Option.some.injEq]
    split_ifs with hjh
    · subst hjh
      exact prev_setPrev_self hj _
    · exact prev_setPrev_ne res (Ne.symm hjh) _

theorem insertEntry_new (hostname : Text) (hexAddr ttl : BitVec 32) (t : ℤ) (res : DnsResolver) :
    (insertEntry hostname hexAddr ttl t res).next res.heap.length = res.head ∧
      (insertEntry hostname hexAddr ttl t res).heap.length = res.heap.length + 1 := by
  cases hhead : res.head with
  | none => simp [insertEntry, hhead, DnsResolver.next]
  | some h => simp [insertEntry, hhead, DnsResolver.next, DnsResolver.setPrev]

/-- **A new entry comes in at the head.** -/
theorem insertEntry_linked {res : DnsResolver} {l : List ℕ} (h : Linked res l) (hostname : Text)
    (hexAddr ttl : BitVec 32) (t : ℤ) : Linked (insertEntry hostname hexAddr ttl t res) (res.heap.length :: l) := by
  obtain ⟨hnew, hlen⟩ := insertEntry_new hostname hexAddr ttl t res
  have hold : ∀ j ∈ l, _ := fun j hj => insertEntry_old hostname hexAddr ttl t res (h.valid j hj)
  refine ⟨links_cons.2 ⟨rfl, ?_⟩, List.pairwise_cons.2 ⟨h.valid, h.older⟩, ?_, ?_⟩
  · rw [hnew]
    exact h.links.congr fun j hj => (hold j hj).1
  · intro j hj
    rw [hlen]
    rcases List.mem_cons.1 hj with rfl | hj
    · omega
    · exact (h.valid j hj).trans (Nat.lt_succ_self _)
  · cases l with
    | nil => exact List.IsChain.singleton _
    | cons i l =>
      have hhead := h.links.head
      refine List.isChain_cons_cons.2 ⟨Or.inl ?_, ?_⟩
      · rw [(hold i List.mem_cons_self).2, if_pos hhead]
      · apply h.back.imp_of_mem_tail_imp
        intro b a _ ha hba
        have hlt := (List.pairwise_cons.1 h.older).1 a ha
        have hne : res.head ≠ some a := by
          rw [hhead]
          simp only [ne_eq, Option.some.injEq]
          omega
        unfold Back
        rw [(hold a (List.mem_cons_of_mem _ ha)).2, if_neg hne]
        exact hba

/-- the entries that a walk from head meets -/
theorem Linked.reachable_eq {res : DnsResolver} {l : List ℕ} (h : Linked res l) : res.reachable = l :=
  walk_eq h.links (length_le_of_linked h)

theorem linked_dnsInit : Linked dnsInit [] := ⟨links_nil.2 rfl, List.Pairwise.nil, by simp, List.IsChain.nil⟩

end NetSec.Client
