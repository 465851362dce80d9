/-
The end of a resolver: dns_cleanup (client/dnsutils.c, lines 252-269).

dns_cleanup follows `next` from head and frees each entry. `cleanup` keeps the blocks that have been freed: touching one
of them again, or a block that was never allocated, is an error (`none`), and so is a list that does not end.

Nothing else frees an entry: those that remove_table_entry takes off the list are lost.

- `cleanup_linked`: from a linked list, exactly its entries are freed, from head on, and none is touched again;
- `cleanup_frees`: so in every state that threads sharing the resolver can reach, dns_cleanup frees every unexpired entry
  and none twice, and what it leaks has expired.
-/
import NetSec.Client.SharedResolver

namespace NetSec.Client

open NetSec.LinkedCells NetSec.Run NetSec.TtlMap

/-! ## Model -/

/-- the loop of dns_cleanup, for at most so many entries: the blocks that have been freed, in order -/
def cleanup : ℕ → Option ℕ → DnsResolver → List ℕ → Option (List ℕ)
  | _, none, _, freed => some freed
  | 0, some _, _, _ => none
  | fuel + 1, some head, res, freed =>
    if head < res.heap.length ∧ head ∉ freed then
      let next := res.next head
      cleanup fuel next ((res.setNext head none).setPrev head none) (freed ++ [head])
    else none

def dnsCleanup (res : DnsResolver) : Option (List ℕ) := cleanup res.heap.length res.head res []

/-! ## What is freed -/

/-- **Exactly the list is freed.** -/
theorem cleanup_linked {fuel : ℕ} {p : Option ℕ} {res : DnsResolver} {l freed : List ℕ} (hl : Links res.next p l)
    (hnodup : (freed ++ l).Nodup) (hvalid : ∀ i ∈ l, i < res.heap.length) (hfuel : l.length ≤ fuel) :
    cleanup fuel p res freed = some (freed ++ l) := by
  induction l generalizing fuel p res freed with
  | nil =>
    obtain rfl := links_nil.1 hl
    cases fuel <;> rw [cleanup, List.append_nil]
  | cons i l ih =>
    obtain ⟨rfl, hnext⟩ := links_cons.1 hl
    obtain ⟨fuel, rfl⟩ : ∃ f, fuel = f + 1 := ⟨fuel - 1, by simp at hfuel; omega⟩
    obtain ⟨-, htail, hfreed⟩ := List.nodup_append'.1 hnodup
    have hnot : i ∉ freed := fun hi => hfreed hi List.mem_cons_self
    have hsplit : freed ++ i :: l = freed ++ [i] ++ l := by simp
    rw [cleanup, if_pos ⟨hvalid i List.mem_cons_self, hnot⟩, hsplit]
    refine ih ?_ (hsplit ▸ hnodup) ?_ (by simpa using hfuel)
    · -- clearing the links of a freed entry does not touch the rest
      refine hnext.congr ?_
      intro j hj
      have hji : j ≠ i := by
        rintro rfl
        exact (List.nodup_cons.1 htail).1 hj
      rw [next_setPrev, next_setNext_ne res hji]
    · intro j hj
      rw [length_setPrev, length_setNext]
      exact hvalid j (List.mem_cons_of_mem i hj)

theorem dnsCleanup_linked {res : DnsResolver} {l : List ℕ} (h : Linked res l) : dnsCleanup res = some l := by
  have hnodup : l.Nodup := h.older.imp fun hab => by omega
  have hfree : cleanup res.heap.length res.head res [] = some ([] ++ l) :=
    cleanup_linked h.links hnodup h.valid (length_le_of_linked h)
  exact hfree

/-! ## Every reachable state -/

/-- the unexpired entries are on the list -/
structure KeepsLive (x : Shared) (l : List ℕ) : Prop where
  linked : Linked x.res l
  live : ∀ j e, x.res.entries[j]? = some e → e.Live x.clock → j ∈ l

/-- **An unexpired entry stays on the list.** -/
theorem keepsLive_step {x x' : Shared} {o : SharedOp} (h : SharedInv x) {l : List ℕ} (hl : KeepsLive x l)
    (hs : sharedStep x o = some x') : ∃ l', KeepsLive x' l' := by
  cases o with
  | wait seconds =>
    simp only [sharedStep, Option.some.injEq] at hs
    subst hs
    refine ⟨l, hl.linked, ?_⟩
    intro j e he hlive
    exact hl.live j e he (le_trans (by simp) hlive)
  | call i hostname =>
    simp only [sharedStep] at hs
    split at hs
    · obtain rfl := Option.some.inj hs
      exact ⟨l, hl.linked, hl.live⟩
    · cases hs
  | lock i =>
    simp only [sharedStep] at hs
    split at hs
    · obtain ⟨rwlock, -, rfl⟩ := Option.map_eq_some_iff.1 hs
      exact ⟨l, hl.linked, hl.live⟩
    · cases hs
  | scan i =>
    simp only [sharedStep] at hs
    split at hs
    · rename_i hostname timestamp hpc
      have hpast : timestamp ≤ x.clock := h.past i timestamp (by rw [hpc]; rfl)
      obtain ⟨l', hlinked, hkeep, hentries, -⟩ := scan_head_linked timestamp hostname hl.linked
      -- what is unexpired now was so at the time of the reading
      have hlive : ∀ j e, (x.scanned hostname timestamp).2.entries[j]? = some e → e.Live x.clock → j ∈ l' := by
        intro j e he hlive
        have hsame : x.res.entries[j]? = some e := by
          rw [← he]
          exact congrArg (fun es : List (Entry Text (BitVec 32)) => es[j]?) hentries.symm
        exact hkeep j (hl.live j e hsame hlive) e hsame (hpast.trans hlive)
      split at hs
      · obtain rfl := Option.some.inj hs
        exact ⟨l', hlinked, hlive⟩
      · obtain rfl := Option.some.inj hs
        exact ⟨l', hlinked, hlive⟩
    · cases hs
  | query i answer =>
    simp only [sharedStep] at hs
    split at hs
    · rename_i hostname timestamp hpc
      cases answer with
      | none =>
        obtain rfl := Option.some.inj hs
        exact ⟨l, hl.linked, hl.live⟩
      | some a =>
        obtain rfl := Option.some.inj hs
        refine ⟨_, insertEntry_linked hl.linked hostname a.1 a.2 timestamp, ?_⟩
        intro j e he hlive
        change (insertEntry hostname a.1 a.2 timestamp x.res).entries[j]? = some e at he
        rw [entries_insertEntry, List.getElem?_append] at he
        split_ifs at he with hj
        · exact List.mem_cons_of_mem _ (hl.live j e he hlive)
        · have hlast : j = x.res.heap.length := by
            rw [length_entries] at hj he
            have hone := (List.getElem?_eq_some_iff.1 he).1
            rw [List.length_singleton] at hone
            omega
          rw [hlast]
          exact List.mem_cons_self
    · cases hs
  | unlock i =>
    simp only [sharedStep] at hs
    split at hs
    · obtain rfl := Option.some.inj hs
      exact ⟨l, hl.linked, hl.live⟩
    · cases hs

/-- **dns_cleanup frees what is left, once.** In every state that threads sharing a resolver can reach from dns_init, in
every interleaving with the clock: dns_cleanup comes to its end, touches no block that it has freed, frees allocated
blocks only and none twice; and an entry that it does not free has expired. -/
theorem cleanup_frees (t : ℤ) {ops : List SharedOp} {x : Shared} (hrun : run sharedStep (startShared t) ops = some x) :
    ∃ freed, dnsCleanup x.res = some freed ∧ freed = x.res.reachable ∧ freed.Nodup ∧
      (∀ i ∈ freed, i < x.res.heap.length) ∧
      ∀ j e, x.res.entries[j]? = some e → j ∉ freed → ¬ e.Live x.clock := by
  have hstart : ∃ l, KeepsLive (startShared t) l := ⟨[], linked_dnsInit, fun j e he => by simp [startShared, dnsInit,
    DnsResolver.entries] at he⟩
  have hkeep : ∀ x o x', (SharedInv x ∧ ∃ l, KeepsLive x l) → sharedStep x o = some x' →
      SharedInv x' ∧ ∃ l, KeepsLive x' l := by
    rintro x o x' ⟨hinv, l, hl⟩ hs
    exact ⟨sharedInv_step hinv hs, keepsLive_step hinv hl hs⟩
  obtain ⟨-, l, hl⟩ := run_inv sharedStep hkeep ⟨sharedInv_start t, hstart⟩ hrun
  have hnodup : l.Nodup := hl.linked.older.imp fun hab => by omega
  refine ⟨l, dnsCleanup_linked hl.linked, hl.linked.reachable_eq.symm, hnodup, hl.linked.valid, ?_⟩
  intro j e he hj hlive
  exact hj (hl.live j e he hlive)

/-- an entry that has expired as the last of the list is taken off by the next call, and leaked -/
theorem cleanup_frees_rest : ∃ x, run sharedStep (startShared 0)
    [.call 0 "h".toList, .lock 0, .scan 0, .query 0 (some (7, 1)), .unlock 0, .wait 2, .call 0 "h".toList, .lock 0,
      .scan 0, .query 0 (some (8, 1))] = some x ∧ dnsCleanup x.res = some [1] := by
  have hrun : run sharedStep (startShared 0)
    [.call 0 "h".toList, .lock 0, .scan 0, .query 0 (some (7, 1)), .unlock 0, .wait 2, .call 0 "h".toList, .lock 0,
      .scan 0, .query 0 (some (8, 1))] = some _ := rfl
  obtain ⟨freed, hfreed, hreach, -⟩ := cleanup_frees 0 hrun
  refine ⟨_, hrun, ?_⟩
  rw [hfreed, hreach]
  decide

end NetSec.Client
