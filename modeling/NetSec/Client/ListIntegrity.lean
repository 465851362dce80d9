/-
Is the resolver's cache a doubly linked list? remove_table_entry under the scans of resolve (client/dnsutils.c, lines
218-235 and 291-326).

`DoublyLinked` is what an entry's `prev` and `next` are for. An insertion keeps it. Of the four cases of
remove_table_entry, the one for an entry in the middle changes only the `prev` of the removed entry, and the one for
the head leaves the `prev` of the next entry as it is.

- `removesExactly_iff`: on a doubly linked list a removal leaves exactly the other entries if the entry is the first or
  the last one, and (`removesCleanly_iff`) a doubly linked list only if it is the last one;
- `list_integrity_iff`: so in a run of calls all removals are right, the list stays doubly linked, and a scan that
  reaches the end leaves no expired entry, exactly when no scan comes to an expired entry that is not the last one
  (`OnlyLastExpired`);
- `scan_eq_removals`: `removals` are those that the scan makes;
- `middle_expires`: the entry in the middle expires first, and stays.
-/
import NetSec.Client.ResolverCache

namespace NetSec.Client

open NetSec.LinkedCells NetSec.Run NetSec.TtlMap

/-! ## Properties -/

/-- the entries from head on are linked both ways -/
structure DoublyLinked (res : DnsResolver) : Prop where
  head : ∀ i ∈ res.head, res.prev i = none
  back : ∀ i ∈ res.reachable, ∀ n ∈ res.next i, res.prev n = some i

instance (res : DnsResolver) : Decidable (DoublyLinked res) :=
  decidable_of_iff ((∀ i ∈ res.head, res.prev i = none) ∧ ∀ i ∈ res.reachable, ∀ n ∈ res.next i, res.prev n = some i)
    ⟨fun h => ⟨h.1, h.2⟩, fun h => ⟨h.head, h.back⟩⟩

/-- the other entries stay reachable, in their order, and no more -/
def RemovesExactly (res : DnsResolver) (i : ℕ) : Prop :=
  (removeTableEntry res i).reachable = res.reachable.filter (· ≠ i)

instance (res : DnsResolver) (i : ℕ) : Decidable (RemovesExactly res i) :=
  inferInstanceAs (Decidable ((removeTableEntry res i).reachable = res.reachable.filter (· ≠ i)))

structure RemovesCleanly (res : DnsResolver) (i : ℕ) : Prop where
  others : RemovesExactly res i
  linked : DoublyLinked (removeTableEntry res i)

def ExpiredAt (t : ℤ) (res : DnsResolver) (i : ℕ) : Prop := ∃ e, res.entries[i]? = some e ∧ ¬ e.Live t

/-- a scan for the name ends with this entry -/
def FoundAt (t : ℤ) (hostname : Text) (res : DnsResolver) (i : ℕ) : Prop :=
  ∃ e, res.entries[i]? = some e ∧ e.Live t ∧ e.key = hostname

/-- the removals of a scan, with the list in front of each -/
def removals (timestamp : ℤ) (hostname : Text) : ℕ → Option ℕ → DnsResolver → List (DnsResolver × ℕ)
  | 0, _, _ => []
  | _ + 1, none, _ => []
  | fuel + 1, some i, res =>
    match res.heap[i]? with
    | none => []
    | some e =>
      if e.expired timestamp then
        let removed := removeTableEntry res i
        (res, i) :: removals timestamp hostname fuel ((removed.heap[i]?).bind DnsTableEntry.next) removed
      else if hostname = e.name then []
      else removals timestamp hostname fuel e.next res

/-- the scan of the call -/
def Session.scanned (x : Session) (c : Lookup) : Option DnsTableEntry × DnsResolver :=
  scan (x.clock + c.wait) c.hostname x.res.heap.length x.res.head x.res

/-- the removals of the call -/
def Session.removals (x : Session) (c : Lookup) : List (DnsResolver × ℕ) :=
  Client.removals (x.clock + c.wait) c.hostname x.res.heap.length x.res.head x.res

/-- the call keeps the list in order -/
structure KeepsIntegrity (x : Session) (c : Lookup) (x' : Session) : Prop where
  removed : ∀ r ∈ x.removals c, RemovesCleanly r.1 r.2
  swept : (x.scanned c).1 = none → ∀ i ∈ (x.scanned c).2.reachable, ¬ ExpiredAt (x.clock + c.wait) (x.scanned c).2 i
  linked : DoublyLinked x'.res

/-- an expired entry that a scan for the name would come to is the last one -/
def OnlyLastExpired (t : ℤ) (hostname : Text) (res : DnsResolver) : Prop :=
  ∀ pre i post, res.reachable = pre ++ i :: post → (∀ j ∈ pre, ¬ FoundAt t hostname res j) → ExpiredAt t res i →
    post = []

/-- the removals are those of the scan -/
theorem scan_eq_removals (t : ℤ) (hostname : Text) (fuel : ℕ) (cur : Option ℕ) (res : DnsResolver) :
    (scan t hostname fuel cur res).2 =
      ((removals t hostname fuel cur res).map Prod.snd).foldl removeTableEntry res := by
  induction fuel generalizing cur res with
  | zero => rfl
  | succ fuel ih =>
    cases cur with
    | none => rfl
    | some i =>
      rw [scan, removals]
      cases res.heap[i]? with
      | none => rfl
      | some e =>
        simp only
        split_ifs
        · rw [ih, List.map_cons, List.foldl_cons]
        · rfl
        · exact ih _ _

/-! ## One removal -/

theorem Linked.next_eq {res : DnsResolver} {pre post : List ℕ} {i : ℕ} (h : Linked res (pre ++ i :: post)) :
    res.next i = post.head? := by
  have hlinks := h.links.drop
  cases post with
  | nil => exact links_nil.1 hlinks
  | cons j post => exact hlinks.head

theorem DoublyLinked.prev_eq {res : DnsResolver} {pre post : List ℕ} {i : ℕ} (h : DoublyLinked res)
    (hl : Linked res (pre ++ i :: post)) : res.prev i = pre.getLast? := by
  rcases pre.eq_nil_or_concat' with rfl | ⟨front, b, rfl⟩
  · exact h.head i hl.links.head
  · have hsplit : Linked res (front ++ b :: i :: post) := by simpa using hl
    rw [List.getLast?_concat]
    apply h.back b _ i hsplit.next_eq
    rw [hl.reachable_eq]
    simp

/-- an entry is in the list once -/
theorem Linked.others {res : DnsResolver} {pre post : List ℕ} {i : ℕ} (h : Linked res (pre ++ i :: post)) :
    (pre ++ i :: post).filter (· ≠ i) = pre ++ post := by
  have hnodup : (pre ++ i :: post).Nodup := h.older.imp fun hab => by omega
  obtain ⟨-, htail, hdisjoint⟩ := List.nodup_append'.1 hnodup
  have hpre : pre.filter (· ≠ i) = pre := by
    rw [List.filter_eq_self]
    intro j hj
    simp only [ne_eq, decide_eq_true_eq]
    rintro rfl
    exact hdisjoint hj List.mem_cons_self
  have hpost : post.filter (· ≠ i) = post := by
    rw [List.filter_eq_self]
    intro j hj
    simp only [ne_eq, decide_eq_true_eq]
    rintro rfl
    exact (List.nodup_cons.1 htail).1 hj
  rw [List.filter_append, hpre, List.filter_cons_of_neg (by simp), hpost]

/-- **The last entry.** The list ends with the one in front. -/
theorem removeTableEntry_last {res : DnsResolver} {pre : List ℕ} {i : ℕ} (h : DoublyLinked res)
    (hl : Linked res (pre ++ [i])) :
    Linked (removeTableEntry res i) pre ∧ DoublyLinked (removeTableEntry res i) := by
  have hnext : res.next i = none := hl.next_eq
  have hprev := h.prev_eq hl
  rw [removeTableEntry_cases (hl.valid i (by simp)), hnext, hprev]
  rcases pre.eq_nil_or_concat' with rfl | ⟨front, p, rfl⟩
  · have hempty : Linked { res with head := none } [] := ⟨links_nil.2 rfl, List.Pairwise.nil, by simp, List.IsChain.nil⟩
    have hnone : DoublyLinked { res with head := none } := by
      refine ⟨nofun, ?_⟩
      rw [hempty.reachable_eq]
      nofun
    exact ⟨hempty, hnone⟩
  · rw [List.getLast?_concat] at hprev ⊢
    have hlinked := linked_setNext_mem hl hprev (by simp)
    refine ⟨hlinked, ?_, ?_⟩
    · rw [prev_setNext]
      exact h.head
    · rw [hlinked.reachable_eq, prev_setNext]
      intro j hj n hn
      by_cases hjp : j = p
      · rw [hjp] at hn
        simp only [next_setNext_none, Option.mem_def, reduceCtorEq] at hn
      · simp only [next_setNext_ne res hjp] at hn
        refine h.back j ?_ n hn
        rw [hl.reachable_eq]
        exact List.mem_append_left _ hj

/-- **The first of several entries.** The next one becomes the head, and keeps its `prev`. -/
theorem removeTableEntry_first {res : DnsResolver} {post : List ℕ} {i n : ℕ} (h : DoublyLinked res)
    (hl : Linked res (i :: n :: post)) :
    Linked (removeTableEntry res i) (n :: post) ∧ ¬ DoublyLinked (removeTableEntry res i) := by
  have hfirst : Linked res ([] ++ i :: n :: post) := hl
  have hsecond : Linked res ([i] ++ n :: post) := hl
  have hnext : res.next i = some n := hfirst.next_eq
  have hprev : res.prev i = none := h.prev_eq hfirst
  have hback : res.prev n = some i := h.prev_eq hsecond
  have hafter := (links_cons.1 hl.links).2
  rw [hnext] at hafter
  rw [removeTableEntry_cases (hl.valid i (by simp)), hnext, hprev]
  refine ⟨⟨hafter, hl.older.of_cons, fun j hj => hl.valid j (List.mem_cons_of_mem _ hj), hl.back.tail⟩, ?_⟩
  intro hlinked
  have hnone : res.prev n = none := hlinked.head n rfl
  rw [hback] at hnone
  cases hnone

/-- **An entry in the middle** stays. -/
theorem removeTableEntry_middle {res : DnsResolver} {front post : List ℕ} {p i n : ℕ} (h : DoublyLinked res)
    (hl : Linked res (front ++ [p] ++ i :: n :: post)) :
    Linked (removeTableEntry res i) (front ++ [p] ++ i :: n :: post) := by
  have hnext : res.next i = some n := hl.next_eq
  have hprev : res.prev i = some p := by rw [h.prev_eq hl, List.getLast?_concat]
  rw [removeTableEntry_cases (hl.valid i (by simp)), hnext, hprev]
  exact linked_setPrev hl hnext

/-- **Which removals leave exactly the others.** -/
theorem removesExactly_iff {res : DnsResolver} {pre post : List ℕ} {i : ℕ} (h : DoublyLinked res)
    (hl : Linked res (pre ++ i :: post)) : RemovesExactly res i ↔ pre = [] ∨ post = [] := by
  unfold RemovesExactly
  rw [hl.reachable_eq, hl.others]
  cases post with
  | nil =>
    rw [(removeTableEntry_last h hl).1.reachable_eq]
    simp
  | cons n post =>
    rcases pre.eq_nil_or_concat' with rfl | ⟨front, p, rfl⟩
    · rw [(removeTableEntry_first h hl).1.reachable_eq]
      simp
    · rw [(removeTableEntry_middle h hl).reachable_eq]
      apply iff_of_false _ (by simp)
      intro hsame
      have hlen := congrArg List.length hsame
      simp at hlen

/-- **Which removals leave a doubly linked list of the others.** -/
theorem removesCleanly_iff {res : DnsResolver} {pre post : List ℕ} {i : ℕ} (h : DoublyLinked res)
    (hl : Linked res (pre ++ i :: post)) : RemovesCleanly res i ↔ post = [] := by
  refine ⟨?_, ?_⟩
  · intro hclean
    rcases (removesExactly_iff h hl).1 hclean.others with rfl | hpost
    · cases post with
      | nil => rfl
      | cons n post => exact absurd hclean.linked (removeTableEntry_first h hl).2
    · exact hpost
  · rintro rfl
    exact ⟨(removesExactly_iff h hl).2 (Or.inr rfl), (removeTableEntry_last h hl).2⟩

/-! ## One scan -/

section Scan

variable {t : ℤ} {hostname : Text} {res : DnsResolver} {i : ℕ}

theorem expiredAt_iff (h : i < res.heap.length) : ExpiredAt t res i ↔ res.heap[i].expired t = true := by
  rw [ExpiredAt, entries_getElem?, List.getElem?_eq_getElem h, ← Bool.not_eq_false, expired_eq_false]
  simp

theorem foundAt_iff (h : i < res.heap.length) :
    FoundAt t hostname res i ↔ res.heap[i].expired t = false ∧ hostname = res.heap[i].name := by
  rw [FoundAt, entries_getElem?, List.getElem?_eq_getElem h, expired_eq_false, eq_comm (a := hostname)]
  simp [DnsTableEntry.entry]

theorem scan_some (h : i < res.heap.length) (fuel : ℕ) : scan t hostname (fuel + 1) (some i) res =
    if res.heap[i].expired t then
      scan t hostname fuel ((removeTableEntry res i).next i) (removeTableEntry res i)
    else if hostname = res.heap[i].name then (some res.heap[i], res)
    else scan t hostname fuel (res.next i) res := by
  simp only [scan, DnsResolver.next, List.getElem?_eq_getElem h, Option.bind_some]

theorem removals_some (h : i < res.heap.length) (fuel : ℕ) : removals t hostname (fuel + 1) (some i) res =
    if res.heap[i].expired t then
      (res, i) :: removals t hostname fuel ((removeTableEntry res i).next i) (removeTableEntry res i)
    else if hostname = res.heap[i].name then []
    else removals t hostname fuel (res.next i) res := by
  simp only [removals, DnsResolver.next, List.getElem?_eq_getElem h, Option.bind_some]

@[simp] theorem scan_none (fuel : ℕ) : scan t hostname fuel none res = (none, res) := by cases fuel <;> rfl

@[simp] theorem removals_none (fuel : ℕ) : removals t hostname fuel none res = [] := by cases fuel <;> rfl

/-- behind the last entry the scan ends -/
theorem next_removed_last {pre : List ℕ} (hl : Linked res (pre ++ [i])) : (removeTableEntry res i).next i = none := by
  obtain ⟨pre', -, -, hafter⟩ := removeTableEntry_linked hl
  exact links_nil.1 hafter

/-- of the entries ahead, one that is expired and that the scan comes to is the last one -/
def OnlyLastOf (t : ℤ) (hostname : Text) (res : DnsResolver) (ahead : List ℕ) : Prop :=
  ∀ a i b, ahead = a ++ i :: b → (∀ j ∈ a, ¬ FoundAt t hostname res j) → ExpiredAt t res i → b = []

theorem onlyLastOf_cons {post : List ℕ} (hexp : ¬ ExpiredAt t res i) (hfound : ¬ FoundAt t hostname res i) :
    OnlyLastOf t hostname res (i :: post) ↔ OnlyLastOf t hostname res post := by
  refine ⟨?_, ?_⟩
  · intro h a k b hpost ha
    exact h (i :: a) k b (by rw [hpost]; rfl) (List.forall_mem_cons.2 ⟨hfound, ha⟩)
  · intro h a k b hpost ha hk
    cases a with
    | nil =>
      obtain ⟨rfl, -⟩ := List.cons.inj hpost
      exact absurd hk hexp
    | cons j a =>
      obtain ⟨rfl, htail⟩ := List.cons.inj hpost
      exact h a k b htail (fun j hj => ha j (List.mem_cons_of_mem _ hj)) hk

theorem onlyLastOf_found {post : List ℕ} (hexp : ¬ ExpiredAt t res i) (hfound : FoundAt t hostname res i) :
    OnlyLastOf t hostname res (i :: post) := by
  intro a k b hpost ha hk
  cases a with
  | nil =>
    obtain ⟨rfl, -⟩ := List.cons.inj hpost
    exact absurd hk hexp
  | cons j a =>
    obtain ⟨rfl, -⟩ := List.cons.inj hpost
    exact absurd hfound (ha i List.mem_cons_self)

/-- an expired entry right ahead -/
theorem onlyLastOf_expired {post : List ℕ} (hexp : ExpiredAt t res i) :
    OnlyLastOf t hostname res (i :: post) ↔ post = [] := by
  refine ⟨fun h => h [] i post rfl nofun hexp, ?_⟩
  rintro rfl a k b hpost - -
  rcases List.append_eq_singleton_iff.1 hpost.symm with ⟨-, hb⟩ | ⟨-, hb⟩
  · exact (List.cons.inj hb).2
  · cases hb

/-- **When the removals of a scan are right.** -/
theorem removals_clean_iff {fuel : ℕ} {cur : Option ℕ} (h : DoublyLinked res) (pre : List ℕ) {post : List ℕ}
    (hl : Linked res (pre ++ post)) (hcur : Links res.next cur post) (hfuel : post.length ≤ fuel) :
    (∀ r ∈ removals t hostname fuel cur res, RemovesCleanly r.1 r.2) ↔ OnlyLastOf t hostname res post := by
  induction post generalizing fuel cur pre with
  | nil =>
    obtain rfl := links_nil.1 hcur
    rw [removals_none]
    exact iff_of_true nofun fun a i b hnil => by simp at hnil
  | cons i post ih =>
    obtain ⟨rfl, hnext⟩ := links_cons.1 hcur
    obtain ⟨fuel, rfl⟩ : ∃ f, fuel = f + 1 := ⟨fuel - 1, by simp at hfuel; omega⟩
    have hlt : i < res.heap.length := hl.valid i (by simp)
    rw [removals_some hlt]
    cases hexp : res.heap[i].expired t with
    | true =>
      rw [onlyLastOf_expired ((expiredAt_iff hlt).2 hexp), if_pos rfl, ← removesCleanly_iff h hl, List.forall_mem_cons]
      refine ⟨And.left, ?_⟩
      intro hclean
      obtain rfl := (removesCleanly_iff h hl).1 hclean
      rw [next_removed_last hl, removals_none]
      exact ⟨hclean, nofun⟩
    | false =>
      have hlive : ¬ ExpiredAt t res i := by
        rw [expiredAt_iff hlt, hexp]
        simp
      by_cases hname : hostname = res.heap[i].name
      · simp only [Bool.false_eq_true, if_false, if_pos hname]
        exact iff_of_true nofun (onlyLastOf_found hlive ((foundAt_iff hlt).2 ⟨hexp, hname⟩))
      · have hfound : ¬ FoundAt t hostname res i := fun hf => hname ((foundAt_iff hlt).1 hf).2
        simp only [Bool.false_eq_true, if_false, if_neg hname]
        rw [onlyLastOf_cons hlive hfound]
        apply ih (pre ++ [i]) (by simpa using hl) hnext
        simpa using hfuel

/-- **What such a scan leaves.** -/
theorem scan_swept {fuel : ℕ} {cur : Option ℕ} (h : DoublyLinked res) (pre : List ℕ)
    {post : List ℕ} (hl : Linked res (pre ++ post)) (hcur : Links res.next cur post) (hfuel : post.length ≤ fuel)
    (hpre : ∀ j ∈ pre, ¬ ExpiredAt t res j) (hlast : OnlyLastOf t hostname res post) :
    DoublyLinked (scan t hostname fuel cur res).2 ∧ ((scan t hostname fuel cur res).1 = none →
      ∀ j ∈ (scan t hostname fuel cur res).2.reachable, ¬ ExpiredAt t (scan t hostname fuel cur res).2 j) := by
  induction post generalizing fuel cur pre with
  | nil =>
    obtain rfl := links_nil.1 hcur
    rw [scan_none, hl.reachable_eq, List.append_nil]
    exact ⟨h, fun _ => hpre⟩
  | cons i post ih =>
    obtain ⟨rfl, hnext⟩ := links_cons.1 hcur
    obtain ⟨fuel, rfl⟩ : ∃ f, fuel = f + 1 := ⟨fuel - 1, by simp at hfuel; omega⟩
    have hlt : i < res.heap.length := hl.valid i (by simp)
    rw [scan_some hlt]
    cases hexp : res.heap[i].expired t with
    | true =>
      obtain rfl := (onlyLastOf_expired ((expiredAt_iff hlt).2 hexp)).1 hlast
      obtain ⟨hlinked, hboth⟩ := removeTableEntry_last h hl
      rw [if_pos rfl, next_removed_last hl, scan_none, hlinked.reachable_eq]
      refine ⟨hboth, ?_⟩
      intro _ j hj hexpired
      rw [ExpiredAt, entries_removeTableEntry] at hexpired
      exact hpre j hj hexpired
    | false =>
      have hlive : ¬ ExpiredAt t res i := by
        rw [expiredAt_iff hlt, hexp]
        simp
      by_cases hname : hostname = res.heap[i].name
      · simp only [Bool.false_eq_true, if_false, if_pos hname]
        exact ⟨h, nofun⟩
      · have hfound : ¬ FoundAt t hostname res i := fun hf => hname ((foundAt_iff hlt).1 hf).2
        simp only [Bool.false_eq_true, if_false, if_neg hname]
        apply ih (pre ++ [i]) (by simpa using hl) hnext (by simpa using hfuel)
        · intro j hj
          rcases List.mem_append.1 hj with hj | hj
          · exact hpre j hj
          · rw [List.mem_singleton.1 hj]
            exact hlive
        · exact (onlyLastOf_cons hlive hfound).1 hlast

end Scan

/-! ## Insertions -/

theorem prev_insertEntry_new (hostname : Text) (hexAddr ttl : BitVec 32) (t : ℤ) (res : DnsResolver) :
    (insertEntry hostname hexAddr ttl t res).prev res.heap.length = none := by
  cases hhead : res.head with
  | none => simp [insertEntry, hhead, DnsResolver.prev]
  | some h => simp [insertEntry, hhead, DnsResolver.prev, DnsResolver.setPrev]

/-- **A new head keeps the list doubly linked.** -/
theorem insertEntry_doublyLinked {res : DnsResolver} {l : List ℕ} (h : DoublyLinked res) (hl : Linked res l)
    (hostname : Text) (hexAddr ttl : BitVec 32) (t : ℤ) :
    DoublyLinked (insertEntry hostname hexAddr ttl t res) := by
  obtain ⟨hnew, -⟩ := insertEntry_new hostname hexAddr ttl t res
  have hold : ∀ j ∈ l, _ := fun j hj => insertEntry_old hostname hexAddr ttl t res (hl.valid j hj)
  refine ⟨?_, ?_⟩
  · intro i hi
    obtain rfl : res.heap.length = i := Option.some.inj hi
    exact prev_insertEntry_new hostname hexAddr ttl t res
  · rw [(insertEntry_linked hl hostname hexAddr ttl t).reachable_eq]
    intro j hj n hn
    rw [Option.mem_def] at hn
    rcases List.mem_cons.1 hj with rfl | hj
    · -- the old head
      rw [hnew] at hn
      have hmem : n ∈ l := by
        have hlinks := hl.links
        rw [hn] at hlinks
        cases l with
        | nil => simp at hlinks
        | cons k l =>
          obtain rfl := Option.some.inj hlinks.head
          exact List.mem_cons_self
      rw [(hold n hmem).2, if_pos hn]
    · rw [(hold j hj).1] at hn
      obtain ⟨pre, post, rfl⟩ := List.append_of_mem hj
      have hpost := hl.next_eq
      rw [hn] at hpost
      obtain ⟨post, rfl⟩ := List.head?_eq_some_iff.1 hpost.symm
      have hne : res.head ≠ some n := by
        -- n comes behind j, so that it is older than the head
        intro hhead
        have hlt := hl.next_lt hn
        have holder := List.pairwise_append.1 hl.older
        have hlinks := hl.links
        rw [hhead] at hlinks
        cases pre with
        | nil =>
          obtain rfl := Option.some.inj hlinks.head
          omega
        | cons k pre =>
          obtain rfl := Option.some.inj hlinks.head
          have hnj := holder.2.2 n List.mem_cons_self j List.mem_cons_self
          omega
      rw [(hold n (by simp)).2, if_neg hne]
      exact h.back j (by rw [hl.reachable_eq]; simp) n hn

/-! ## Runs -/

theorem resolve_state (t : ℤ) (hostname : Text) (answer : Option (BitVec 32 × BitVec 32)) (res : DnsResolver) :
    (resolve t hostname answer res).2 = (scan t hostname res.heap.length res.head res).2 ∨
      ∃ hexAddr ttl, (resolve t hostname answer res).2 =
        insertEntry hostname hexAddr ttl t (scan t hostname res.heap.length res.head res).2 := by
  unfold resolve
  rcases scan t hostname res.heap.length res.head res with ⟨found, res'⟩
  cases found with
  | some e => exact Or.inl rfl
  | none =>
    cases answer with
    | none => exact Or.inl rfl
    | some a => exact Or.inr ⟨a.1, a.2, rfl⟩

theorem resolve_linked {res : DnsResolver} {l : List ℕ} (h : Linked res l) (t : ℤ) (hostname : Text)
    (answer : Option (BitVec 32 × BitVec 32)) : ∃ l', Linked (resolve t hostname answer res).2 l' := by
  obtain ⟨l', hl', -⟩ := scan_head_linked t hostname h
  rcases resolve_state t hostname answer res with hsame | ⟨hexAddr, ttl, hnew⟩
  · exact ⟨l', by rw [hsame]; exact hl'⟩
  · exact ⟨_, by rw [hnew]; exact insertEntry_linked hl' hostname hexAddr ttl t⟩

/-- **One call.** -/
theorem keepsIntegrity_iff {x x' : Session} {c : Lookup} {l : List ℕ} (h : DoublyLinked x.res) (hl : Linked x.res l)
    (hs : sessionStep x c = some x') :
    KeepsIntegrity x c x' ↔ OnlyLastExpired (x.clock + c.wait) c.hostname x.res := by
  obtain rfl := Option.some.inj hs
  have hclean : (∀ r ∈ x.removals c, RemovesCleanly r.1 r.2) ↔ OnlyLastOf (x.clock + c.wait) c.hostname x.res l :=
    removals_clean_iff h [] hl hl.links (length_le_of_linked hl)
  have hcond : OnlyLastExpired (x.clock + c.wait) c.hostname x.res ↔
      OnlyLastOf (x.clock + c.wait) c.hostname x.res l := by
    rw [← hl.reachable_eq]
    exact Iff.rfl
  rw [hcond]
  refine ⟨fun hkeeps => hclean.1 hkeeps.removed, ?_⟩
  intro hlast
  obtain ⟨hscanned, hswept⟩ := scan_swept h [] hl hl.links (length_le_of_linked hl) nofun hlast
  refine ⟨hclean.2 hlast, hswept, ?_⟩
  obtain ⟨l', hl', -⟩ := scan_head_linked (x.clock + c.wait) c.hostname hl
  rcases resolve_state (x.clock + c.wait) c.hostname c.answer x.res with hsame | ⟨hexAddr, ttl, hnew⟩
  · simp only [hsame]
    exact hscanned
  · simp only [hnew]
    exact insertEntry_doublyLinked hscanned hl' c.hostname hexAddr ttl _

/-- in a doubly linked list, the first entry and the last one can be removed -/
theorem removesExactly_iff_ends {res : DnsResolver} {l : List ℕ} (hl : Linked res l) (h : DoublyLinked res) {i : ℕ}
    (hi : i ∈ res.reachable) : RemovesExactly res i ↔ res.head = some i ∨ res.next i = none := by
  rw [hl.reachable_eq] at hi
  obtain ⟨pre, post, rfl⟩ := List.append_of_mem hi
  rw [removesExactly_iff h hl, hl.next_eq, List.head?_eq_none_iff]
  apply or_congr_left
  refine ⟨?_, ?_⟩
  · rintro rfl
    exact hl.links.head
  · intro hhead
    cases pre with
    | nil => rfl
    | cons k pre =>
      have hlinks := hl.links
      rw [hhead] at hlinks
      obtain rfl := Option.some.inj hlinks.head
      have hlt := (List.pairwise_append.1 hl.older).2.2 i List.mem_cons_self i List.mem_cons_self
      omega

/-- **When the list is kept in order.** In every run of calls: all removals leave exactly the other entries, doubly
linked, scans that reach the end leave no expired entry, and the list is doubly linked behind every call, exactly when
no scan comes to an expired entry that is not the last one. And in every state where the list is doubly linked,
remove_table_entry on one of its entries leaves exactly the others if and only if that is the first or the last one. -/
theorem list_integrity_iff (t : ℤ) (calls : List Lookup) :
    (EveryStep sessionStep KeepsIntegrity (startSession t) calls ↔
      EveryStep sessionStep (fun x c _ => OnlyLastExpired (x.clock + c.wait) c.hostname x.res) (startSession t) calls) ∧
    EveryState sessionStep (fun x => DoublyLinked x.res →
      ∀ i ∈ x.res.reachable, (RemovesExactly x.res i ↔ x.res.head = some i ∨ x.res.next i = none))
      (startSession t) calls := by
  have hstep : ∀ (x : Session) (c : Lookup) (x' : Session), (∃ l, Linked x.res l) → sessionStep x c = some x' →
      ∃ l, Linked x'.res l := by
    intro x c x' ⟨l, hl⟩ hs
    obtain rfl := Option.some.inj hs
    exact resolve_linked hl _ _ _
  refine ⟨?_, ?_⟩
  · have hstart : DoublyLinked (startSession t).res ∧ ∃ l, Linked (startSession t).res l :=
      ⟨⟨nofun, nofun⟩, [], linked_dnsInit⟩
    refine everyStep_iff sessionStep (I := fun x => DoublyLinked x.res ∧ ∃ l, Linked x.res l) ?_ hstart calls
    intro x c x' ⟨hdouble, l, hl⟩ hs
    exact ⟨keepsIntegrity_iff hdouble hl hs, fun hkeeps => ⟨hkeeps.linked, hstep x c x' ⟨l, hl⟩ hs⟩⟩
  · refine everyState_of_inv sessionStep hstep ?_ ⟨[], linked_dnsInit⟩ calls
    intro x ⟨l, hl⟩ hdouble i hi
    exact removesExactly_iff_ends hl hdouble hi

/-- three names are looked up; the second one has the shortest TTL; another lookup two seconds later fails -/
def middleExpires : List Lookup :=
  [⟨0, "a".toList, some (1, 10)⟩, ⟨0, "b".toList, some (2, 1)⟩, ⟨0, "c".toList, some (3, 10)⟩, ⟨2, "d".toList, none⟩]

/-- **The entry in the middle stays**, expired, when the scan has reached the end. -/
theorem middle_expires : (∃ x, run sessionStep (startSession 0) (middleExpires.take 3) = some x ∧
      x.res.reachable = [2, 1, 0] ∧ DoublyLinked x.res ∧ ¬ RemovesExactly x.res 1) ∧
    (∃ x, run sessionStep (startSession 0) middleExpires = some x ∧ x.res.reachable = [2, 1, 0] ∧
      ¬ DoublyLinked x.res ∧ ExpiredAt x.clock x.res 1) ∧
    ¬ EveryStep sessionStep KeepsIntegrity (startSession 0) middleExpires := by
  have hexpired : ∀ res : DnsResolver, res.entries[1]? = some ⟨"b".toList, 2, 0, 1⟩ → ExpiredAt 2 res 1 :=
    fun _ h => ⟨_, h, by simp [Entry.Live]⟩
  refine ⟨⟨_, rfl, by decide, by decide, by decide⟩, ⟨_, rfl, by decide, by decide, hexpired _ rfl⟩, ?_⟩
  intro h
  have hkeeps := h (middleExpires.take 3) ⟨2, "d".toList, none⟩ (by decide) _ _ rfl rfl
  exact hkeeps.swept rfl 1 (by decide) (hexpired _ rfl)

end NetSec.Client
