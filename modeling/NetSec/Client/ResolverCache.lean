/-
Is the resolver's cache a map whose entries live for their TTL?

Calls of resolve on one resolver, one after the other, from dns_init. The clock never goes back between calls; each
query may fail or bring any address with any 32-bit TTL. `Session` keeps beside the resolver what the calls so far have
inserted.

It is (`resolver_is_ttl_map`): a call is answered from the cache exactly when an entry of its name is unexpired; there
is one such entry, and its address is the answer; a query that fails gives -1 and leaves the unexpired entries
reachable from head as they were. Although remove_table_entry leaves expired entries in the list and `prev` pointers on
entries that are gone, no unexpired entry is ever cut off.

- `resolve_refines`: one call is a `call` of the abstract map, and keeps all unexpired entries in the list.
-/
import NetSec.Client.Resolver
import NetSec.Core.Run

namespace NetSec.Client

open NetSec.LinkedCells NetSec.Run NetSec.TtlMap

/-! ## Sessions -/

structure Session where
  res : DnsResolver
  clock : ℤ
  /-- what the calls so far have inserted, oldest first -/
  inserted : List (Entry Text (BitVec 32))

/-- a call: the seconds since the last one, the name, and what a query would bring -/
structure Lookup where
  wait : ℕ
  hostname : Text
  answer : Option (BitVec 32 × BitVec 32)
deriving DecidableEq, Repr

/-- what a call inserts that fetched its answer -/
def insertion (t : ℤ) (c : Lookup) : Answer (BitVec 32) → List (Entry Text (BitVec 32))
  | .fetched _ => (c.answer.map fun a => ⟨c.hostname, a.1, t, a.2.toNat⟩).toList
  | _ => []

@[simp] theorem insertion_failed (t : ℤ) (c : Lookup) : insertion t c .failed = [] := rfl

@[simp] theorem insertion_fetched (t : ℤ) {c : Lookup} {a : BitVec 32 × BitVec 32} (h : c.answer = some a)
    (v : BitVec 32) : insertion t c (.fetched v) = [⟨c.hostname, a.1, t, a.2.toNat⟩] := by
  simp only [insertion, h, Option.map_some, Option.toList_some]

/-- the answer to the call -/
def Session.answered (x : Session) (c : Lookup) : Answer (BitVec 32) :=
  (resolve (x.clock + c.wait) c.hostname c.answer x.res).1

def sessionStep (x : Session) (c : Lookup) : Option Session :=
  let t := x.clock + c.wait
  some ⟨(resolve t c.hostname c.answer x.res).2, t, x.inserted ++ insertion t c (x.answered c)⟩

def startSession (t : ℤ) : Session := ⟨dnsInit, t, []⟩

/-! ## The property -/

/-- the entry at `i` is reachable from head, says `e` and is unexpired -/
def Unexpired (t : ℤ) (res : DnsResolver) (i : ℕ) (e : Entry Text (BitVec 32)) : Prop :=
  i ∈ res.reachable ∧ res.entries[i]? = some e ∧ e.Live t

/-- the call is answered as by the map of what was inserted -/
structure ServesLikeMap (x : Session) (c : Lookup) (x' : Session) : Prop where
  hit : (∃ v, x.answered c = .cached v) ↔ ∃ e ∈ x.inserted, e.key = c.hostname ∧ e.Live (x.clock + c.wait)
  unique : OneLive (x.clock + c.wait) x.inserted
  address : ∀ e ∈ x.inserted, e.key = c.hostname → e.Live (x.clock + c.wait) → x.answered c = .cached e.value
  queried : ∀ a, (∀ v, x.answered c ≠ .cached v) → c.answer = some a → x.answered c = .fetched a.1
  failed : (∀ v, x.answered c ≠ .cached v) → c.answer = none → sAddr (x.answered c) = -1 ∧
    ∀ i e, Unexpired (x.clock + c.wait) x'.res i e ↔ Unexpired (x.clock + c.wait) x.res i e

/-! ## One call -/

/-- the list holds every unexpired entry -/
structure Complete (t : ℤ) (res : DnsResolver) (l : List ℕ) : Prop where
  linked : Linked res l
  all : ∀ i e, res.entries[i]? = some e → e.Live t → i ∈ l

theorem Complete.later {t t' : ℤ} {res : DnsResolver} {l : List ℕ} (h : Complete t res l) (hle : t ≤ t') :
    Complete t' res l := ⟨h.linked, fun i e he hlive => h.all i e he (hlive.earlier hle)⟩

theorem Complete.insert {t : ℤ} {res : DnsResolver} {l : List ℕ} (h : Complete t res l) (hostname : Text)
    (hexAddr ttl : BitVec 32) (stamp : ℤ) :
    Complete t (insertEntry hostname hexAddr ttl stamp res) (res.heap.length :: l) := by
  refine ⟨insertEntry_linked h.linked hostname hexAddr ttl stamp, ?_⟩
  intro i e he hlive
  rw [entries_insertEntry] at he
  by_cases hi : i < res.heap.length
  · rw [List.getElem?_append_left (by simpa using hi)] at he
    exact List.mem_cons_of_mem _ (h.all i e he hlive)
  · obtain ⟨hlt, -⟩ := List.getElem?_eq_some_iff.1 he
    rw [List.length_append, length_entries, List.length_singleton] at hlt
    obtain rfl : i = res.heap.length := by omega
    exact List.mem_cons_self

/-- a lookup in the list is a lookup among all entries -/
theorem lookup_listed {t : ℤ} {res : DnsResolver} {l : List ℕ} (h : Complete t res l) (hone : OneLive t res.entries)
    (hostname : Text) : lookup t hostname (res.listed l) = lookup t hostname res.entries := by
  cases hl : lookup t hostname (res.listed l) with
  | some e =>
    have hprop : e.key = hostname ∧ e.Live t := by simpa using List.find?_some hl
    obtain ⟨i, -, hi⟩ := List.mem_filterMap.1 (List.mem_of_find?_eq_some hl)
    exact ((lookup_eq_some hone).2 ⟨List.mem_of_getElem? hi, hprop⟩).symm
  | none =>
    refine (lookup_eq_none.2 ?_).symm
    intro e he hkey hlive
    obtain ⟨i, hi⟩ := List.getElem?_of_mem he
    exact lookup_eq_none.1 hl e (List.mem_filterMap.2 ⟨i, h.all i e hi hlive, hi⟩) hkey hlive

/-- **A call is a call of the map.** -/
theorem resolve_refines {t : ℤ} {res : DnsResolver} {l : List ℕ} (h : Complete t res l) (hone : OneLive t res.entries)
    (hostname : Text) (answer : Option (BitVec 32 × BitVec 32)) :
    (resolve t hostname answer res).1 = (call t hostname (answer.map fun a => (a.1, a.2.toNat)) res.entries).1 ∧
      (resolve t hostname answer res).2.entries =
        (call t hostname (answer.map fun a => (a.1, a.2.toNat)) res.entries).2 ∧
      ∃ l', Complete t (resolve t hostname answer res).2 l' := by
  obtain ⟨l', hlinked, hkeep, hentries, hfound⟩ := scan_head_linked t hostname h.linked
  have hcomplete : Complete t (scan t hostname res.heap.length res.head res).2 l' := by
    refine ⟨hlinked, ?_⟩
    intro i e he hlive
    rw [hentries] at he
    exact hkeep i (h.all i e he hlive) e he hlive
  rw [lookup_listed h hone] at hfound
  unfold resolve call
  rcases hscan : scan t hostname res.heap.length res.head res with ⟨found, res'⟩
  rw [hscan] at hfound hentries hcomplete
  rw [← hfound]
  cases found with
  | some e => exact ⟨rfl, hentries, l', hcomplete⟩
  | none =>
    cases answer with
    | none => exact ⟨rfl, hentries, l', hcomplete⟩
    | some a =>
      refine ⟨rfl, ?_, res'.heap.length :: l', hcomplete.insert hostname a.1 a.2 t⟩
      simp only [Option.map_none, entries_insertEntry, hentries, Option.map_some]

/-- a call that fails takes only expired entries off -/
theorem unexpired_failed {t : ℤ} {res : DnsResolver} {l l' : List ℕ} {hostname : Text}
    {answer : Option (BitVec 32 × BitVec 32)} (h : Complete t res l)
    (h' : Complete t (resolve t hostname answer res).2 l')
    (hentries : (resolve t hostname answer res).2.entries = res.entries) (i : ℕ) (e : Entry Text (BitVec 32)) :
    Unexpired t (resolve t hostname answer res).2 i e ↔ Unexpired t res i e := by
  unfold Unexpired
  rw [h.linked.reachable_eq, h'.linked.reachable_eq, hentries]
  refine ⟨?_, ?_⟩
  · intro ⟨_, he, hlive⟩
    exact ⟨h.all i e he hlive, he, hlive⟩
  · intro ⟨_, he, hlive⟩
    exact ⟨h'.all i e (by rw [hentries]; exact he) hlive, he, hlive⟩

/-! ## Runs -/

/-- the resolver's entries are those inserted; at most one of each name is unexpired; all unexpired ones are listed -/
structure SessionInv (x : Session) : Prop where
  entries : x.res.entries = x.inserted
  one : OneLive x.clock x.inserted
  complete : ∃ l, Complete x.clock x.res l

theorem sessionInv_start (t : ℤ) : SessionInv (startSession t) :=
  ⟨rfl, List.Pairwise.nil, [], linked_dnsInit, by simp [startSession, dnsInit, DnsResolver.entries]⟩

/-- a call for a name with an unexpired entry -/
theorem servesLikeMap_hit {x x' : Session} {c : Lookup} {e : Entry Text (BitVec 32)}
    (hone : OneLive (x.clock + c.wait) x.inserted) (he : e ∈ x.inserted) (hkey : e.key = c.hostname)
    (hlive : e.Live (x.clock + c.wait)) (hanswer : x.answered c = .cached e.value) : ServesLikeMap x c x' := by
  refine ⟨iff_of_true ⟨_, hanswer⟩ ⟨e, he, hkey, hlive⟩, hone, ?_, ?_, ?_⟩
  · intro e' he' hkey' hlive'
    rw [hone.unique he' he (hkey'.trans hkey.symm) hlive' hlive]
    exact hanswer
  · intro a hno
    exact absurd hanswer (hno _)
  · intro hno
    exact absurd hanswer (hno _)

/-- a call for a name without one -/
theorem servesLikeMap_miss {x x' : Session} {c : Lookup} (hone : OneLive (x.clock + c.wait) x.inserted)
    (hnone : ∀ e ∈ x.inserted, e.key = c.hostname → ¬ e.Live (x.clock + c.wait))
    (hfetched : ∀ a, c.answer = some a → x.answered c = .fetched a.1)
    (hfailed : c.answer = none → x.answered c = .failed)
    (hkept : c.answer = none →
      ∀ i e, Unexpired (x.clock + c.wait) x'.res i e ↔ Unexpired (x.clock + c.wait) x.res i e) :
    ServesLikeMap x c x' := by
  refine ⟨iff_of_false ?_ ?_, hone, ?_, fun a _ ha => hfetched a ha, ?_⟩
  · intro ⟨v, hv⟩
    cases hc : c.answer with
    | none => simp [hfailed hc] at hv
    | some a => simp [hfetched a hc] at hv
  · intro ⟨e, he, hkey, hlive⟩
    exact hnone e he hkey hlive
  · intro e he hkey hlive
    exact absurd hlive (hnone e he hkey)
  · intro _ hc
    exact ⟨by rw [hfailed hc]; rfl, hkept hc⟩

theorem session_step {x x' : Session} {c : Lookup} (h : SessionInv x) (hs : sessionStep x c = some x') :
    ServesLikeMap x c x' ∧ SessionInv x' := by
  simp only [sessionStep, Option.some.injEq] at hs
  subst hs
  have hle : x.clock ≤ x.clock + c.wait := by omega
  have hone := h.one.later hle
  obtain ⟨l, hcomplete⟩ := h.complete
  have hlater := hcomplete.later hle
  have hone' : OneLive (x.clock + c.wait) x.res.entries := by rw [h.entries]; exact hone
  obtain ⟨hanswer, hentries, l', hcomplete'⟩ := resolve_refines hlater hone' c.hostname c.answer
  have hcall := hone.call c.hostname (c.answer.map fun a => (a.1, a.2.toNat))
  rw [h.entries] at hanswer hentries
  change x.answered c = _ at hanswer
  unfold call at hanswer hentries hcall
  cases hl : lookup (x.clock + c.wait) c.hostname x.inserted with
  | some e =>
    obtain ⟨he, hkey, hlive⟩ := (lookup_eq_some hone).1 hl
    simp only [hl] at hanswer hentries
    have hinserted : insertion (x.clock + c.wait) c (x.answered c) = [] := by rw [hanswer]; rfl
    refine ⟨servesLikeMap_hit hone he hkey hlive hanswer, ?_, ?_, l', hcomplete'⟩
    · rw [hinserted, List.append_nil]
      exact hentries
    · rw [hinserted, List.append_nil]
      exact hone
  | none =>
    have hnone := lookup_eq_none.1 hl
    simp only [hl] at hanswer hentries hcall
    have hfetched : ∀ a, c.answer = some a → x.answered c = .fetched a.1 := by
      intro a ha
      simpa [ha] using hanswer
    have hfailed : c.answer = none → x.answered c = .failed := by
      intro ha
      simpa [ha] using hanswer
    -- what the call inserts is what the map inserts
    have hinserted : (resolve (x.clock + c.wait) c.hostname c.answer x.res).2.entries =
        x.inserted ++ insertion (x.clock + c.wait) c (x.answered c) := by
      cases hc : c.answer with
      | none => simpa [hc, hfailed hc] using hentries
      | some a => simpa [hc, hfetched a hc, insertion_fetched _ hc] using hentries
    refine ⟨servesLikeMap_miss hone hnone hfetched hfailed ?_, hinserted, ?_, l', hcomplete'⟩
    · intro hc
      apply unexpired_failed hlater hcomplete'
      rw [hinserted, hfailed hc, insertion_failed, List.append_nil, h.entries]
    · rw [← hinserted, hentries]
      exact hcall

/-- **The cache is a map whose entries live for their TTL.** In every run of calls from dns_init, at any times that
never decrease and whatever the queries bring: a call is answered from the cache exactly when an entry of its name was
inserted with timestamp + ttl not before it, that entry is the only one, its address is the answer; and a failed query
gives -1 and leaves the unexpired entries in the list as they were. -/
theorem resolver_is_ttl_map (t : ℤ) (calls : List Lookup) :
    EveryStep sessionStep ServesLikeMap (startSession t) calls := by
  refine everyStep_of_inv sessionStep (I := SessionInv) ?_ (sessionInv_start t) calls
  intro x c x' h hs
  exact session_step h hs

end NetSec.Client
