/-
Mappings and how the NAT server hands them out: `cmpMaps`, `findElement`, `getExpirationTimeMap`, `manipulateMapping`
and the expiry handlers (NAT/NATServer.c, lines 258-365 and 506-606; NAT/LinkedList.c, lines 133-160).

State of the server: the clock, the firewall, `mappingList` and `bannedList` (oldest entry first, `insertElement`
appends, `popElement` takes the head), and the acknowledgements given so far. A ban is kept in the source as a Mapping
whose `publicIP` is never set; here it has its own type.

What a call reads from outside is an argument: `AddEnv` lists the seconds that pass before each reading of the clock,
the values `rand` draws, and the values of `cp1..cp4` that `sscanf` leaves unset when the text is not four numbers.
The retry loop makes one draw for each entry of `draws`; a list that is too short or too long is no call (`none`).

`cmpMaps` computes its time comparison in a 32-bit `int` although the times are `time_t`; `wrap32` keeps that.

Results:
- `cmpMaps_eq_zero`: what a search matches; `inWindow_of_fresh`: an unexpired entry is always in the search's window;
- `drawAddress_some`: the address the loop ends with is held by no entry in the window, and every earlier one is;
- `manipulateMapping_some`: a call either answers the first match of its prefix, unexpired, and changes nothing but the
  clock, or installs a new mapping under a drawn address.
-/
import NetSec.NatServer.Firewall

namespace NetSec.NatServer

open NetSec.Text

structure Mapping where
  time : ℤ
  ispPrefix : Text
  publicIP : Text
deriving DecidableEq, Repr

/-- an entry of `bannedList`: a Mapping with no public address -/
structure Ban where
  time : ℤ
  ispPrefix : Text
deriving DecidableEq, Repr

/-- the element a search compares with: a NULL field matches anything -/
structure SearchMap where
  time : ℤ
  ispPrefix : Option Text
  publicIP : Option Text
deriving DecidableEq, Repr

/-! ## Searching -/

/-- an `int` of 32 bits -/
def wrap32 (x : ℤ) : ℤ := x.bmod (2 ^ 32)

/-- 0 if the element matches the searched one, 1 otherwise -/
def cmpMaps (map1 : SearchMap) (map2 : Mapping) : ℕ :=
  let (ispMatched, ispFields) := match map1.ispPrefix with
    | some isp => (if isp = map2.ispPrefix then 1 else 0, 1)
    | none => (0, 0)
  let (publicMatched, publicFields) := match map1.publicIP with
    | some pub => (if pub = map2.publicIP then 1 else 0, 1)
    | none => (0, 0)
  let timeCompare := wrap32 (map2.time - map1.time)
  let timeMatched := if 0 ≤ timeCompare then 1 else 0
  if ispMatched + publicMatched + timeMatched = ispFields + publicFields + 1 then 0 else 1

/-- the first element from the head on which the comparison gives 0 -/
def findElement {α β : Type} (cmp : β → α → ℕ) (elm1 : β) : List α → Option α
  | [] => none
  | elm :: rest => if cmp elm1 elm = 0 then some elm else findElement cmp elm1 rest

/-- the time test of a search with time bound `bound` -/
def InWindow (bound : ℤ) (m : Mapping) : Prop := 0 ≤ wrap32 (m.time - bound)

instance (bound : ℤ) (m : Mapping) : Decidable (InWindow bound m) := by unfold InWindow; infer_instance

theorem cmpMaps_eq_zero (s : SearchMap) (m : Mapping) :
    cmpMaps s m = 0 ↔
      (∀ isp, s.ispPrefix = some isp → isp = m.ispPrefix) ∧ (∀ pub, s.publicIP = some pub → pub = m.publicIP) ∧
        InWindow s.time m := by
  obtain ⟨t, isp, pub⟩ := s
  unfold cmpMaps InWindow
  cases isp <;> cases pub <;> simp only [reduceCtorEq, false_implies, forall_const, Option.some.injEq, forall_eq',
    true_and] <;> split_ifs <;> simp_all

/-- the search by prefix -/
theorem cmpMaps_ofPrefix (bound : ℤ) (isp : Text) (m : Mapping) :
    cmpMaps ⟨bound, some isp, none⟩ m = 0 ↔ m.ispPrefix = isp ∧ InWindow bound m := by
  rw [cmpMaps_eq_zero]
  simp [eq_comm]

/-- the search by public address -/
theorem cmpMaps_address (bound : ℤ) (pub : Text) (m : Mapping) :
    cmpMaps ⟨bound, none, some pub⟩ m = 0 ↔ m.publicIP = pub ∧ InWindow bound m := by
  rw [cmpMaps_eq_zero]
  simp [eq_comm]

theorem findElement_eq_find? {α β : Type} (cmp : β → α → ℕ) (elm1 : β) (l : List α) :
    findElement cmp elm1 l = l.find? fun elm => cmp elm1 elm = 0 := by
  induction l with
  | nil => rfl
  | cons elm rest ih => simp only [findElement, List.find?_cons, ih]; split_ifs with h <;> simp [h]

theorem findElement_some {α β : Type} {cmp : β → α → ℕ} {elm1 : β} {l : List α} {elm : α}
    (h : findElement cmp elm1 l = some elm) : elm ∈ l ∧ cmp elm1 elm = 0 := by
  rw [findElement_eq_find?] at h
  exact ⟨List.mem_of_find?_eq_some h, by simpa using List.find?_some h⟩

theorem findElement_none {α β : Type} {cmp : β → α → ℕ} {elm1 : β} {l : List α}
    (h : findElement cmp elm1 l = none) : ∀ elm ∈ l, cmp elm1 elm ≠ 0 := by
  rw [findElement_eq_find?, List.find?_eq_none] at h
  simpa using h

/-- the match found comes before every other match -/
theorem findElement_first {α β : Type} {cmp : β → α → ℕ} {elm1 : β} {l : List α} {R : α → α → Prop} {a b : α}
    (hl : l.Pairwise R) (hR : ∀ x, R x x) (h : findElement cmp elm1 l = some a) (hb : b ∈ l)
    (hcmp : cmp elm1 b = 0) : R a b := by
  rw [findElement_eq_find?, List.find?_eq_some_iff_append] at h
  obtain ⟨-, as, bs, rfl, has⟩ := h
  rcases List.mem_append.1 hb with hb | hb
  · exact absurd (has b hb) (by simp [hcmp])
  · rcases List.mem_cons.1 hb with rfl | hb
    · exact hR b
    · exact (List.pairwise_cons.1 (List.pairwise_append.1 hl).2.1).1 b hb

/-- a difference that fits an `int` keeps its sign -/
theorem wrap32_of_lt {x : ℤ} (h0 : -2 ^ 31 ≤ x) (h1 : x < 2 ^ 31) : wrap32 x = x := by
  unfold wrap32
  rw [Int.bmod_eq_of_le] <;> norm_num at * <;> omega

/-- **An unexpired entry is in the window** of every search whose first clock reading is not 2^31 seconds old -/
theorem inWindow_of_fresh {m : Mapping} {t now : ℤ} (hm : m.time ≤ now) (ht : t ≤ now)
    (hfresh : now - m.time < expirationTimeSeconds) (hdelay : now - t < 2 ^ 31 - expirationTimeSeconds) :
    InWindow (t - expirationTimeSeconds) m := by
  unfold InWindow
  unfold expirationTimeSeconds at *
  rw [wrap32_of_lt] <;> norm_num at * <;> omega

/-! ## The server's state -/

/-- an acknowledgement sent: address, lifetime in seconds, the clock when it was sent -/
inductive Ack where
  | lease (isp pub : Text) (ttl sent : ℤ)
  | ban (ip : Text) (ttl sent : ℤ)
deriving DecidableEq, Repr

structure Server where
  now : ℤ
  fw : Firewall
  mappingList : List Mapping
  bannedList : List Ban
  /-- the acknowledgements so far, oldest first -/
  acks : List Ack
deriving DecidableEq, Repr

/-! ## manipulateMapping -/

/-- one round of the retry loop: seconds until the clock is read for `srand`, and what `rand` returns -/
structure Draw where
  wait : ℕ
  rand : ℕ
deriving DecidableEq, Repr

/-- what one call of `manipulateMapping` reads from outside -/
structure AddEnv where
  /-- `cp1..cp4` before `sscanf` -/
  uninit : List ℤ
  /-- seconds until the clock is read for the search, for the freshness test, and for the new mapping -/
  waitSearch : ℕ
  waitTest : ℕ
  draws : List Draw
  waitStamp : ℕ
deriving DecidableEq, Repr

/-- `cp & 255` of an `int` -/
def octet (cp : ℤ) : ℕ := (cp % 256).toNat

/-- the /26 of the client's address, as the source prints it -/
def ispPrefix (uninit : List ℤ) (ip : Text) : Text :=
  let scanned := scanDotted 4 ip
  let cp (i : ℕ) : ℕ := octet ((scanned[i]?).getD ((uninit[i]?).getD 0))
  decimal (cp 0) ++ '.' :: decimal (cp 1) ++ '.' :: decimal (cp 2) ++ '.' :: decimal (cp 3 &&& 192) ++ "/26".toList

/-- the public address drawn from the value of `rand` -/
def fluxAddress (rand : ℕ) : Text :=
  serverFluxClassAAddress ++ decimal (rand % (publicIpRangeEnd - publicIpRangeStart + 1) + publicIpRangeStart)

/-- the do-while loop: draw until no entry in the window holds the address; the address and the clock then -/
def drawAddress (list : List Mapping) (bound : ℤ) : ℤ → List Draw → Option (Text × ℤ)
  | _, [] => none
  | now, d :: draws =>
    let publicIP := fluxAddress d.rand
    match findElement cmpMaps ⟨bound, none, some publicIP⟩ list with
    | some _ => drawAddress list bound (now + d.wait) draws
    | none => if draws = [] then some (publicIP, now + d.wait) else none

structure SuccessMapping where
  mappedIP : Text
  mapTTL : ℤ
deriving DecidableEq, Repr

/-- the search for a running lease: first match of the prefix, tested for freshness; with the clock after it -/
def runningLease (isp : Text) (e : AddEnv) (s : Server) : Option Mapping × ℤ :=
  let timeNow := s.now + e.waitSearch
  match findElement cmpMaps ⟨timeNow - expirationTimeSeconds, some isp, none⟩ s.mappingList with
  | none => (none, timeNow)
  | some m =>
    let timeNow := timeNow + e.waitTest
    (if timeNow - m.time < expirationTimeSeconds then some m else none, timeNow)

def manipulateMapping (ip : Text) (e : AddEnv) (s : Server) : Option (SuccessMapping × Server) :=
  let isp := ispPrefix e.uninit ip
  match runningLease isp e s with
  | (some m, timeNow) =>
    if e.draws = [] then
      some (⟨m.publicIP, expirationTimeSeconds - (timeNow - m.time)⟩, { s with now := timeNow })
    else none
  | (none, timeNow) =>
    -- the time bound of the first search stays in use while the clock moves on
    match drawAddress s.mappingList (s.now + e.waitSearch - expirationTimeSeconds) timeNow e.draws with
    | none => none
    | some (publicIP, timeNow) =>
      let fw := checkAddRule .nat .append (.dnat isp publicIP) s.fw
      let fw := checkAddRule .nat .append (.snat isp publicIP) fw
      let timeNow := timeNow + e.waitStamp
      some (⟨publicIP, expirationTimeSeconds⟩,
        { s with now := timeNow, fw := fw, mappingList := s.mappingList ++ [⟨timeNow, isp, publicIP⟩] })

/-! ## Expiry -/

/-- the timestamp at which an element is removed -/
def getExpirationTimeMap (time : ℤ) : ℤ := time + expirationTimeSeconds + gracePeriodSeconds

/-- keep the mapping for the established connections only -/
def handleExpiredMap (map : Mapping) (fw : Firewall) : Firewall :=
  let fw := checkAddRule .nat .append (.dnatEstablished map.ispPrefix map.publicIP) fw
  let fw := checkAddRule .nat .append (.snatEstablished map.ispPrefix map.publicIP) fw
  let fw := checkAddRule .nat .delete (.dnat map.ispPrefix map.publicIP) fw
  checkAddRule .nat .delete (.snat map.ispPrefix map.publicIP) fw

def handleExpiredBan (map : Ban) (fw : Firewall) : Firewall := checkAddRule .filter .delete (.drop map.ispPrefix) fw

/-! ## What a call does -/

theorem octet_ofNat (n : Fin 256) : octet ((n : ℕ) : ℤ) = n := by
  unfold octet
  omega

theorem drawAddress_some {list : List Mapping} {bound now now' : ℤ} {draws : List Draw} {pub : Text}
    (h : drawAddress list bound now draws = some (pub, now')) :
    now ≤ now' ∧ (∃ r, pub = fluxAddress r) ∧ (∀ m ∈ list, m.publicIP = pub → ¬ InWindow bound m) ∧
      ∃ rejected d, draws = rejected ++ [d] ∧ fluxAddress d.rand = pub ∧
        ∀ d' ∈ rejected, ∃ m ∈ list, m.publicIP = fluxAddress d'.rand ∧ InWindow bound m := by
  induction draws generalizing now with
  | nil => simp [drawAddress] at h
  | cons d draws ih =>
    simp only [drawAddress] at h
    split at h
    · rename_i m hm
      obtain ⟨hmem, hcmp⟩ := findElement_some hm
      obtain ⟨hpub, hwin⟩ := (cmpMaps_address _ _ _).1 hcmp
      obtain ⟨h1, h2, h3, rejected, d', rfl, h4, h5⟩ := ih h
      refine ⟨by omega, h2, h3, d :: rejected, d', rfl, h4, ?_⟩
      intro x hx
      rcases List.mem_cons.1 hx with rfl | hx
      · exact ⟨m, hmem, hpub, hwin⟩
      · exact h5 x hx
    · rename_i hnone
      split_ifs at h with hd
      simp only [Option.some.injEq, Prod.mk.injEq] at h
      obtain ⟨rfl, rfl⟩ := h
      refine ⟨by omega, ⟨_, rfl⟩, ?_, [], d, by rw [hd]; rfl, rfl, by simp⟩
      intro m hm hp hwin
      exact findElement_none hnone m hm ((cmpMaps_address _ _ _).2 ⟨hp, hwin⟩)

/-- a running lease is the first match of the prefix in the window, still fresh when it is tested -/
theorem runningLease_some {isp : Text} {e : AddEnv} {s : Server} {m : Mapping} {t : ℤ}
    (h : runningLease isp e s = (some m, t)) :
    t = s.now + e.waitSearch + e.waitTest ∧ m ∈ s.mappingList ∧ m.ispPrefix = isp ∧
      t - m.time < expirationTimeSeconds ∧
      findElement cmpMaps ⟨s.now + e.waitSearch - expirationTimeSeconds, some isp, none⟩ s.mappingList = some m := by
  simp only [runningLease] at h
  split at h
  · simp at h
  · rename_i m' hm
    simp only [Prod.mk.injEq] at h
    obtain ⟨h1, rfl⟩ := h
    split_ifs at h1 with hf
    simp only [Option.some.injEq] at h1
    subst h1
    obtain ⟨hmem, hcmp⟩ := findElement_some hm
    exact ⟨rfl, hmem, ((cmpMaps_ofPrefix _ _ _).1 hcmp).1, hf, hm⟩

/-- no running lease: nothing of the prefix is in the window, or its first match there is no longer fresh -/
theorem runningLease_none {isp : Text} {e : AddEnv} {s : Server} {t : ℤ} (h : runningLease isp e s = (none, t)) :
    s.now + e.waitSearch ≤ t ∧
      ((∀ m ∈ s.mappingList, m.ispPrefix = isp → ¬ InWindow (s.now + e.waitSearch - expirationTimeSeconds) m) ∨
        ∃ m ∈ s.mappingList, m.ispPrefix = isp ∧ InWindow (s.now + e.waitSearch - expirationTimeSeconds) m ∧
          expirationTimeSeconds ≤ t - m.time) := by
  simp only [runningLease] at h
  split at h
  · rename_i hnone
    simp only [Prod.mk.injEq, true_and] at h
    refine ⟨h.le, Or.inl ?_⟩
    intro m hm hisp hwin
    exact findElement_none hnone m hm ((cmpMaps_ofPrefix _ _ _).2 ⟨hisp, hwin⟩)
  · rename_i m hm
    simp only [Prod.mk.injEq] at h
    obtain ⟨h1, rfl⟩ := h
    split_ifs at h1 with hf
    obtain ⟨hmem, hcmp⟩ := findElement_some hm
    obtain ⟨hisp, hwin⟩ := (cmpMaps_ofPrefix _ _ _).1 hcmp
    exact ⟨by omega, Or.inr ⟨m, hmem, hisp, hwin, not_lt.1 hf⟩⟩

/-- the state after a new mapping is installed -/
def install (isp pub : Text) (t : ℤ) (s : Server) : Server :=
  { s with
    now := t
    fw := checkAddRule .nat .append (.snat isp pub) (checkAddRule .nat .append (.dnat isp pub) s.fw)
    mappingList := s.mappingList ++ [⟨t, isp, pub⟩] }

/-- **What a call does.** It answers an unexpired match of the prefix and moves only the clock, or it installs a new
mapping under a drawn address that no entry in the window of its first clock reading holds. -/
theorem manipulateMapping_some {ip : Text} {e : AddEnv} {s s' : Server} {sm : SuccessMapping}
    (h : manipulateMapping ip e s = some (sm, s')) :
    (∃ m, runningLease (ispPrefix e.uninit ip) e s = (some m, s'.now) ∧ e.draws = [] ∧
        sm = ⟨m.publicIP, expirationTimeSeconds - (s'.now - m.time)⟩ ∧ s' = { s with now := s'.now }) ∨
      ∃ pub t t', runningLease (ispPrefix e.uninit ip) e s = (none, t) ∧
        drawAddress s.mappingList (s.now + e.waitSearch - expirationTimeSeconds) t e.draws = some (pub, t') ∧
        sm = ⟨pub, expirationTimeSeconds⟩ ∧ s' = install (ispPrefix e.uninit ip) pub (t' + e.waitStamp) s := by
  simp only [manipulateMapping] at h
  split at h
  · rename_i m t hrun
    split_ifs at h with hd
    simp only [Option.some.injEq, Prod.mk.injEq] at h
    obtain ⟨rfl, rfl⟩ := h
    exact Or.inl ⟨m, hrun, hd, rfl, rfl⟩
  · rename_i t hrun
    split at h
    · simp at h
    · rename_i pub t' hdraw
      simp only [Option.some.injEq, Prod.mk.injEq] at h
      obtain ⟨rfl, rfl⟩ := h
      exact Or.inr ⟨pub, t, t', hrun, hdraw, rfl, rfl⟩

end NetSec.NatServer
