/-
The listener's hop table: got_packet (FinalProjectServerListener.c, lines 150-232). Is it keyed by source?

The table is the text of hopsByIP.txt. A source gets two lines, its address and its TTL; the source is looked up by
reading line by line and searching each line for the address, anywhere in it, and 0 stands for "not found".
When 5 seconds have passed since the last reset, the file is opened for writing only: nothing can be read from it, and
it starts afresh with the packet at hand. Clock readings are in microseconds. `hopEQ` is the tolerance, any function of
the stored value. The file starts empty.

`Trace` keeps beside the file the packets since the last reset. `KeyedBySource`: the value compared against a
packet is the TTL of the first packet of its source since then, none is found when there was none, and it is banned as
that value says. It fails twice: 10.4.11.1 is compared with the TTL of 10.4.11.17 (`address_in_address`), and a source
whose first packet has TTL 0 is never found again.

- `search_records`: what the search finds in the file is the TTL of the first record whose address holds the source's;
- `keyed_by_source_iff`: in every run the table is keyed by source exactly when of the packets since the reset the first
  one whose address holds the source's has a TTL other than 0, the one the source's first packet has, or there is none,
  or it has TTL 0 and the source has sent nothing (`TableClear`).
-/
import NetSec.Core.Lines
import NetSec.Core.Run
import NetSec.NatServer.Framing

namespace NetSec.Listener

open NetSec.NatServer NetSec.Run NetSec.Text

/-! ## Model -/

def hopLifetime : ℤ := 5 * 1000000

/-- a packet as it reaches got_packet: its source, its TTL, and the two readings of the clock -/
structure Arrival where
  src : IPv4
  ttl : Fin 256
  now : ℤ
  /-- the second one, made when the file is reset -/
  reset : ℤ
deriving DecidableEq, Repr

/-- hopsByIP.txt and the time of its last reset -/
structure HopFile where
  text : Text
  initial : ℤ
deriving DecidableEq, Repr

/-- "\n%s \n%d" -/
def record (src : IPv4) (ttl : ℕ) : Text := '\n' :: src.text ++ ' ' :: '\n' :: decimal ttl

/-- the loop over the lines: the number in the line after the first one that holds the address; 0 if there is none -/
def search (addr : Text) : List Text → ℤ
  | [] => 0
  | buff :: rest => if strstr buff addr then atoi (rest.headD buff) else search addr rest

def banCommand (src : IPv4) : Text := "BAN;".toList ++ src.text

/-- the packet is let through -/
def reasonablyClose (hopEQ : ℤ → ℤ) (getHops ttl : ℤ) : Bool :=
  ttl ≤ getHops + hopEQ getHops && getHops - hopEQ getHops ≤ ttl

structure Received where
  getHops : ℤ
  /-- what is sent to the NAT server -/
  sent : Option Text
  file : HopFile
deriving DecidableEq, Repr

/-- `fopen`: "w" after the lifetime, which leaves nothing to read; else "a+", which reads from the start and writes at
the end -/
def openFile (p : Arrival) (f : HopFile) : HopFile :=
  let elapsed := p.now - f.initial
  if hopLifetime ≤ elapsed then ⟨[], p.reset⟩ else f

def gotPacket (hopEQ : ℤ → ℤ) (p : Arrival) (f : HopFile) : Received :=
  let opened := openFile p f
  let getHops := search p.src.text (lines 50 opened.text)
  if getHops ≠ 0 then
    ⟨getHops, if reasonablyClose hopEQ getHops p.ttl then none else some (banCommand p.src), opened⟩
  else ⟨getHops, none, { opened with text := opened.text ++ record p.src p.ttl }⟩

/-- the stored value that the packet is compared against -/
def Received.compared (r : Received) : Option ℤ := if r.getHops ≠ 0 then some r.getHops else none

/-! ## Properties -/

/-- the file and the packets since the last reset, the one that caused it included -/
structure Trace where
  file : HopFile
  seen : List Arrival
deriving DecidableEq, Repr

/-- the packets since the last reset, once the packet at hand has caused one or not -/
def Trace.since (x : Trace) (p : Arrival) : List Arrival :=
  if hopLifetime ≤ p.now - x.file.initial then [] else x.seen

def traceStep (hopEQ : ℤ → ℤ) (x : Trace) (p : Arrival) : Option Trace :=
  some ⟨(gotPacket hopEQ p x.file).file, x.since p ++ [p]⟩

/-- the TTL of the first packet of a source -/
def firstTtl (src : IPv4) (seen : List Arrival) : Option ℤ := (seen.find? fun q => q.src = src).map fun q => (q.ttl : ℤ)

/-- what is to be sent, from what is stored for the source -/
def banOf (hopEQ : ℤ → ℤ) (p : Arrival) (stored : Option ℤ) : Option Text :=
  stored.bind fun hops => if reasonablyClose hopEQ hops p.ttl then none else some (banCommand p.src)

/-- the value compared is that of the source, and the source is banned as it says -/
structure KeyedBySource (hopEQ : ℤ → ℤ) (x : Trace) (p : Arrival) : Prop where
  compared : (gotPacket hopEQ p x.file).compared = firstTtl p.src (x.since p)
  sent : (gotPacket hopEQ p x.file).sent = banOf hopEQ p (firstTtl p.src (x.since p))

/-- the first packet since the reset whose address holds the source's: there is none; or it has TTL 0 and the source has
sent nothing; or it has the TTL of the source's first packet -/
def TableClear (x : Trace) (p : Arrival) : Prop :=
  match (x.since p).find? fun q => strstr q.src.text p.src.text with
  | none => True
  | some q => if q.ttl = 0 then ∀ r ∈ x.since p, r.src ≠ p.src else firstTtl p.src (x.since p) = some (q.ttl : ℤ)

/-! ## The file -/

/-- the file after these packets were recorded -/
def records (rs : List Arrival) : Text := (rs.map fun r => record r.src r.ttl).flatten

theorem address_ne_nil (src : IPv4) : src.text ≠ [] := List.length_pos_iff.1 (by have := text_length src; omega)

theorem not_mem_address {c : Char} (hdigit : c.isDigit = false) (hdot : c ≠ '.') (src : IPv4) : c ∉ src.text := by
  intro h
  rcases mem_text h with h | h
  · rw [h] at hdigit
    cases hdigit
  · exact hdot h

theorem not_mem_decimal {c : Char} (hdigit : c.isDigit = false) (n : ℕ) : c ∉ decimal n := by
  intro h
  rw [isDigit_of_mem_decimal h] at hdigit
  cases hdigit

/-- every address holds a dot -/
theorem dot_mem_address (src : IPv4) : '.' ∈ src.text := by simp [IPv4.text]

theorem search_skip {addr buff : Text} (h : strstr buff addr = false) (rest : List Text) :
    search addr (buff :: rest) = search addr rest := by
  simp only [search, h, Bool.false_eq_true, if_false]

/-- nothing is found in an empty line -/
theorem search_newline (addr : IPv4) (s : Text) :
    search addr.text (lines 50 ('\n' :: s)) = search addr.text (lines 50 s) := by
  have hline : lines 50 ('\n' :: s) = ['\n'] :: lines 50 s := lines_cons (l := []) (by simp) (by simp) s
  rw [hline]
  exact search_skip (strstr_of_mem (dot_mem_address addr) (by decide)) _

/-- the line of a TTL is read as the TTL, and no address is found in it -/
theorem lines_ttl (addr : IPv4) {n : ℕ} (hn : n < 256) (rs : List Arrival) :
    ∃ buff rest, lines 50 (decimal n ++ records rs) = buff :: rest ∧ atoi buff = n ∧ strstr buff addr.text = false ∧
      search addr.text rest = search addr.text (lines 50 (records rs)) := by
  have hlen := length_decimal_octet hn
  have hdot : '.' ∉ decimal n := not_mem_decimal (by decide) n
  have hnl : '\n' ∉ decimal n := not_mem_decimal (by decide) n
  cases rs with
  | nil =>
    refine ⟨decimal n, [], ?_, ?_, strstr_of_mem (dot_mem_address addr) hdot, rfl⟩
    · rw [show records [] = [] from rfl, List.append_nil, lines_last (decimal_ne_nil n) hnl (by omega)]
    · simpa using atoi_decimal n [] (by simp)
  | cons r rs =>
    obtain ⟨t, ht⟩ : ∃ t, records (r :: rs) = '\n' :: t := ⟨_, rfl⟩
    refine ⟨decimal n ++ ['\n'], lines 50 t, ?_, atoi_decimal n _ (by simp), ?_, ?_⟩
    · rw [ht, lines_cons hnl (by omega)]
    · exact strstr_of_mem (dot_mem_address addr) (by simpa using hdot)
    · rw [ht, search_newline]

/-- a record is found by its address line and read from its TTL line -/
theorem search_record (addr : IPv4) (r : Arrival) (rs : List Arrival) :
    search addr.text (lines 50 (records (r :: rs))) =
      if strstr r.src.text addr.text then (r.ttl : ℤ) else search addr.text (lines 50 (records rs)) := by
  have hlen := text_length_le r.src
  have hnl : '\n' ∉ r.src.text ++ [' '] := by
    simpa using not_mem_address (by decide) (by decide) r.src
  have hfile : records (r :: rs) = '\n' :: ((r.src.text ++ [' ']) ++ '\n' :: (decimal r.ttl ++ records rs)) := by
    simp [records, record]
  have haddr : strstr (r.src.text ++ [' '] ++ ['\n']) addr.text = strstr r.src.text addr.text := by
    rw [strstr_snoc (address_ne_nil addr) (not_mem_address (by decide) (by decide) addr),
      strstr_snoc (address_ne_nil addr) (not_mem_address (by decide) (by decide) addr)]
  obtain ⟨buff, rest, hlines, hatoi, hskip, hrest⟩ := lines_ttl addr r.ttl.isLt rs
  rw [hfile, search_newline, lines_cons hnl (by simp; omega), hlines]
  simp only [search, haddr, hskip, List.headD_cons, hatoi, hrest, Bool.false_eq_true, if_false]

/-- **What the search finds.** The TTL of the first record whose address holds the one searched for. -/
theorem search_records (addr : IPv4) (rs : List Arrival) : search addr.text (lines 50 (records rs)) =
    ((rs.find? fun r => strstr r.src.text addr.text).map fun r => (r.ttl : ℤ)).getD 0 := by
  induction rs with
  | nil => rfl
  | cons r rs ih =>
    rw [search_record, List.find?_cons]
    cases strstr r.src.text addr.text with
    | true => rfl
    | false => exact ih

/-! ## The table and the packets -/

/-- the file records packets among which every source is found as among those since the reset -/
def Recorded (text : Text) (seen : List Arrival) : Prop :=
  ∃ rs, text = records rs ∧ ∀ q : IPv4 → Bool, (rs.find? fun r => q r.src) = seen.find? fun r => q r.src

theorem recorded_nil : Recorded [] [] := ⟨[], rfl, fun _ => rfl⟩

theorem Recorded.opened {x : Trace} (h : Recorded x.file.text x.seen) (p : Arrival) :
    Recorded (openFile p x.file).text (x.since p) := by
  simp only [openFile, Trace.since]
  split_ifs
  · exact recorded_nil
  · exact h

/-- a packet is recorded -/
theorem Recorded.snoc {text : Text} {seen : List Arrival} (h : Recorded text seen) (p : Arrival) :
    Recorded (text ++ record p.src p.ttl) (seen ++ [p]) := by
  obtain ⟨rs, rfl, hfind⟩ := h
  refine ⟨rs ++ [p], by simp [records], ?_⟩
  intro q
  rw [List.find?_append, List.find?_append, hfind q]

/-- a packet of a source that has sent one before need not be recorded -/
theorem Recorded.skip {text : Text} {seen : List Arrival} (h : Recorded text seen) {p r : Arrival} (hr : r ∈ seen)
    (hsrc : r.src = p.src) : Recorded text (seen ++ [p]) := by
  obtain ⟨rs, rfl, hfind⟩ := h
  refine ⟨rs, rfl, ?_⟩
  intro q
  rw [hfind q, List.find?_append]
  cases hq : seen.find? fun r => q r.src with
  | some _ => rfl
  | none =>
    have hpq : q p.src = false := by
      have := List.find?_eq_none.1 hq r hr
      rwa [hsrc, Bool.not_eq_true] at this
    simp [hpq]

theorem getHops_of_recorded {x : Trace} (h : Recorded x.file.text x.seen) (hopEQ : ℤ → ℤ) (p : Arrival) :
    (gotPacket hopEQ p x.file).getHops =
      (((x.since p).find? fun q => strstr q.src.text p.src.text).map fun q => (q.ttl : ℤ)).getD 0 := by
  obtain ⟨rs, htext, hfind⟩ := h.opened p
  have hget : (gotPacket hopEQ p x.file).getHops = search p.src.text (lines 50 (openFile p x.file).text) := by
    simp only [gotPacket]
    split_ifs <;> rfl
  rw [hget, htext, search_records, hfind fun src => strstr src.text p.src.text]

/-- what is sent is decided by the stored value alone -/
theorem sent_eq (hopEQ : ℤ → ℤ) (p : Arrival) (f : HopFile) :
    (gotPacket hopEQ p f).sent = banOf hopEQ p (gotPacket hopEQ p f).compared := by
  simp only [gotPacket, Received.compared]
  split_ifs <;> simp [banOf, *]

theorem firstTtl_eq_none {src : IPv4} {seen : List Arrival} : firstTtl src seen = none ↔ ∀ r ∈ seen, r.src ≠ src := by
  simp [firstTtl]

theorem keyedBySource_iff (hopEQ : ℤ → ℤ) (x : Trace) (p : Arrival) : KeyedBySource hopEQ x p ↔
    (gotPacket hopEQ p x.file).compared = firstTtl p.src (x.since p) := by
  refine ⟨fun h => h.compared, ?_⟩
  intro h
  exact ⟨h, by rw [sent_eq, h]⟩

/-- **One packet.** -/
theorem keyed_step {x : Trace} (h : Recorded x.file.text x.seen) (hopEQ : ℤ → ℤ) (p : Arrival) :
    KeyedBySource hopEQ x p ↔ TableClear x p := by
  have hget := getHops_of_recorded h hopEQ p
  rw [keyedBySource_iff]
  unfold TableClear Received.compared
  rw [hget]
  cases hfind : (x.since p).find? fun q => strstr q.src.text p.src.text with
  | none =>
    -- no address holds the source's, so the source itself has sent nothing
    have hnone : ∀ r ∈ x.since p, r.src ≠ p.src := by
      intro r hr hsrc
      have := List.find?_eq_none.1 hfind r hr
      rw [hsrc] at this
      exact this (strstr_self _)
    simp [firstTtl_eq_none.2 hnone]
  | some q =>
    by_cases hq : q.ttl = 0
    · simp only [if_pos hq, ← firstTtl_eq_none]
      simp [hq, eq_comm]
    · have hne : ((q.ttl : ℕ) : ℤ) ≠ 0 := by
        intro h0
        exact hq (Fin.ext (by simpa using h0))
      simp [hq, eq_comm]

theorem recorded_step {x x' : Trace} (h : Recorded x.file.text x.seen) {hopEQ : ℤ → ℤ} {p : Arrival}
    (hs : traceStep hopEQ x p = some x') (hkeyed : KeyedBySource hopEQ x p) : Recorded x'.file.text x'.seen := by
  simp only [traceStep, Option.some.injEq] at hs
  subst hs
  have hopened := h.opened p
  have hcompared := hkeyed.compared
  by_cases h0 : search p.src.text (lines 50 (openFile p x.file).text) = 0
  · simp only [gotPacket, h0, ne_eq, not_true_eq_false, if_false]
    exact hopened.snoc p
  · simp only [gotPacket, h0, Received.compared, ne_eq, not_false_eq_true, if_true] at hcompared ⊢
    obtain ⟨r, hfind, -⟩ := Option.map_eq_some_iff.1 hcompared.symm
    exact hopened.skip (List.mem_of_find?_eq_some hfind) (by simpa using List.find?_some hfind)

/-- **The table is keyed by source exactly when addresses do not get in each other's way.** For every sequence of
packets, with any clock readings and any tolerance, from an empty file: every packet is compared with the first TTL of
its own source since the last reset and banned accordingly, if and only if it finds the file as `TableClear` says. -/
theorem keyed_by_source_iff (hopEQ : ℤ → ℤ) (initial : ℤ) (ps : List Arrival) :
    EveryStep (traceStep hopEQ) (fun x p _ => KeyedBySource hopEQ x p) ⟨⟨[], initial⟩, []⟩ ps ↔
      EveryStep (traceStep hopEQ) (fun x p _ => TableClear x p) ⟨⟨[], initial⟩, []⟩ ps := by
  refine everyStep_iff (traceStep hopEQ) (I := fun x => Recorded x.file.text x.seen) ?_ recorded_nil ps
  intro x p x' h hs
  exact ⟨keyed_step h hopEQ p, recorded_step h hs⟩

/-- `ceil(getHops * .05) + 1` -/
def sourceHopEQ (getHops : ℤ) : ℤ := (getHops + 19) / 20 + 1

/-- a packet of 10.4.11.d, one second after the start -/
def arrival (d ttl : Fin 256) : Arrival := ⟨⟨10, 4, 11, d⟩, ttl, 1000000, 0⟩

/-- **An address in another address.** 10.4.11.1 is banned at its first packet for the TTL of 10.4.11.17; and a source
whose packets have TTL 0 is never found. -/
theorem address_in_address :
    (gotPacket sourceHopEQ (arrival 1 128) (gotPacket sourceHopEQ (arrival 17 64) ⟨[], 0⟩).file).sent =
        some "BAN;10.4.11.1".toList ∧
      ¬ EveryStep (traceStep sourceHopEQ) (fun x p _ => KeyedBySource sourceHopEQ x p) ⟨⟨[], 0⟩, []⟩
        [arrival 17 64, arrival 1 128] ∧
      ¬ EveryStep (traceStep sourceHopEQ) (fun x p _ => KeyedBySource sourceHopEQ x p) ⟨⟨[], 0⟩, []⟩
        [arrival 17 0, arrival 17 0] := by
  refine ⟨by decide, ?_, ?_⟩
  · intro h
    have hkeyed := (h [arrival 17 64] (arrival 1 128) (List.prefix_refl _) _ _ rfl rfl).compared
    revert hkeyed
    decide
  · intro h
    have hkeyed := (h [arrival 17 0] (arrival 17 0) (List.prefix_refl _) _ _ rfl rfl).compared
    revert hkeyed
    decide

end NetSec.Listener
