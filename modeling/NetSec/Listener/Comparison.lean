/-
What does the listener compare a packet with? (FinalProjectServerListener.c, got_packet)

The hop table is not keyed by source. But whatever it has not written down, because another source's record answered,
is answered by that record: holding an address is transitive. So in every run, without any condition, the file answers
as if every packet since the last reset had been written to it.

- `logged_step`: the file holds the log of these packets (`FirstMatch.kept`);
- `compared_with_holder`: a packet is compared with the TTL of the first packet since the reset whose address holds its
  own, with nothing if that TTL is 0, and banned as that says; from the first packet of a source on, this is settled.
-/
import NetSec.Core.FirstMatch
import NetSec.Listener.HopTable

namespace NetSec.Listener

open NetSec.FirstMatch NetSec.NatServer NetSec.Run NetSec.Text

/-- the text of the one address holds that of the other -/
def holds (a b : IPv4) : Bool := strstr a.text b.text

/-- a stored TTL that is not taken for "not found" -/
def counts (r : Arrival) : Bool := r.ttl ≠ 0

/-- the TTL of the first of these packets whose address holds the source's, unless it is 0 -/
def holderTtl (src : IPv4) (seen : List Arrival) : Option ℤ :=
  ((lookup Arrival.src holds seen src).map fun q => (q.ttl : ℤ)).filter (· ≠ 0)

/-- the packet is compared with that TTL, and banned as it says -/
structure ComparedWith (hopEQ : ℤ → ℤ) (x : Trace) (p : Arrival) : Prop where
  compared : (gotPacket hopEQ p x.file).compared = holderTtl p.src (x.since p)
  sent : (gotPacket hopEQ p x.file).sent = banOf hopEQ p (holderTtl p.src (x.since p))

/-- once the source has sent a packet, what comes after that makes no difference -/
def Settled (x : Trace) (p : Arrival) : Prop :=
  ∀ pre suf, x.since p = pre ++ suf → (∃ q ∈ pre, q.src = p.src) → holderTtl p.src (x.since p) = holderTtl p.src pre

theorem holds_trans (a b c : IPv4) (hab : holds a b = true) (hbc : holds b c = true) : holds a c = true :=
  strstr_iff.2 ((strstr_iff.1 hbc).trans (strstr_iff.1 hab))

theorem holds_refl (a : IPv4) : holds a a = true := strstr_self a.text

/-! ## The file is a log -/

/-- the file holds the log of the packets since the reset -/
def Logged (x : Trace) : Prop := x.file.text = records (kept Arrival.src holds counts x.seen)

theorem Logged.opened {x : Trace} (h : Logged x) (p : Arrival) :
    (openFile p x.file).text = records (kept Arrival.src holds counts (x.since p)) := by
  simp only [openFile, Trace.since]
  split_ifs
  · rfl
  · exact h

/-- what the search finds in the file is what all packets since the reset would answer -/
theorem search_logged {x : Trace} (h : Logged x) (p : Arrival) :
    search p.src.text (lines 50 (openFile p x.file).text) =
      ((lookup Arrival.src holds (x.since p) p.src).map fun q => (q.ttl : ℤ)).getD 0 := by
  rw [h.opened p, search_records, ← lookup_kept Arrival.src counts holds_trans]
  rfl

/-- a value was found exactly when the answer counts -/
theorem found_iff (o : Option Arrival) : ((o.map fun q => (q.ttl : ℤ)).getD 0 ≠ 0) ↔ o.any counts = true := by
  cases o with
  | none => simp
  | some q => simp [counts]

theorem compared_logged {x : Trace} (h : Logged x) (hopEQ : ℤ → ℤ) (p : Arrival) : ComparedWith hopEQ x p := by
  have hcompared : (gotPacket hopEQ p x.file).compared = holderTtl p.src (x.since p) := by
    have hget : (gotPacket hopEQ p x.file).getHops = search p.src.text (lines 50 (openFile p x.file).text) := by
      simp only [gotPacket]
      split_ifs <;> rfl
    rw [Received.compared, hget, search_logged h p, holderTtl]
    cases lookup Arrival.src holds (x.since p) p.src with
    | none => rfl
    | some q => simp [Option.filter]
  exact ⟨hcompared, by rw [sent_eq, hcompared]⟩

/-- **One packet.** The file goes on as the log. -/
theorem logged_step (hopEQ : ℤ → ℤ) (x : Trace) (p : Arrival) (x' : Trace) (h : Logged x)
    (hs : traceStep hopEQ x p = some x') : Logged x' := by
  obtain rfl := Option.some.inj hs
  have hfound := found_iff (lookup Arrival.src holds (x.since p) p.src)
  rw [← search_logged h p] at hfound
  rw [Logged, kept_concat, observe, lookup_kept Arrival.src counts holds_trans]
  by_cases hany : (lookup Arrival.src holds (x.since p) p.src).any counts = true
  · have hget : search p.src.text (lines 50 (openFile p x.file).text) ≠ 0 := hfound.2 hany
    simp only [gotPacket, hget, hany, ne_eq, not_false_eq_true, if_true]
    exact h.opened p
  · have hget : search p.src.text (lines 50 (openFile p x.file).text) = 0 :=
      not_not.1 fun hne => hany (hfound.1 hne)
    simp only [gotPacket, hget, hany, ne_eq, not_true_eq_false, if_false, Bool.false_eq_true]
    rw [h.opened p]
    simp [records]

/-! ## Every run -/

theorem settled (x : Trace) (p : Arrival) : Settled x p := by
  rintro pre suf hsplit ⟨q, hq, hsrc⟩
  rw [hsplit, holderTtl, ← hsrc, lookup_settled Arrival.src holds_refl hq, holderTtl]

/-- **What a packet is compared with.** For every sequence of packets, with any clock readings and any tolerance, from
an empty file: the TTL of the first packet since the last reset whose address holds the packet's own, and nothing if
there is none or if that TTL is 0; the packet's source is banned as that says; and from the source's first packet on the
value stays, whatever others send. -/
theorem compared_with_holder (hopEQ : ℤ → ℤ) (initial : ℤ) (ps : List Arrival) :
    EveryStep (traceStep hopEQ) (fun x p _ => ComparedWith hopEQ x p ∧ Settled x p) ⟨⟨[], initial⟩, []⟩ ps := by
  have hempty : Logged ⟨⟨[], initial⟩, []⟩ := rfl
  refine everyStep_of_inv (traceStep hopEQ) ?_ hempty ps
  intro x p x' h hs
  exact ⟨⟨compared_logged h hopEQ p, settled x p⟩, logged_step hopEQ x p x' h hs⟩

end NetSec.Listener
