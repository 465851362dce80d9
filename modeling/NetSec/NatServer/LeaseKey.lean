/-
Do two addresses ask for one lease exactly when they are of one /26? (NAT/NATServer.c, manipulateMapping, lines 519-549,
and cmpMaps)

The key of a lease is a text: sscanf reads the four numbers of the address, the last one is masked, and asprintf prints
them. `firstSearch` is the search that an ADD begins with.

- `scanDotted_ispPrefix`: the key is read back as the first address of the /26;
- `ispPrefix_eq_iff`: so two keys are one text exactly when the two addresses have one /26;
- `same_subnet_same_lease`: these together, and what the first search of an ADD then finds.
-/
import NetSec.NatServer.Framing

namespace NetSec.NatServer

open NetSec.Text

/-- the address as a number -/
def IPv4.bits (ip : IPv4) : BitVec 32 := BitVec.ofNat 32 (ip.a * 2 ^ 24 + ip.b * 2 ^ 16 + ip.c * 2 ^ 8 + ip.d)

/-- the upper 26 bits are the same -/
def SameBlock (a b : IPv4) : Prop := a.bits >>> 6 = b.bits >>> 6

/-- the first address of the /26 -/
def IPv4.block (ip : IPv4) : IPv4 := { ip with d := ip.d &&& 192 }

/-- what the first search of an ADD compares with -/
def firstKey (ip : Text) (e : AddEnv) (s : Server) : SearchMap :=
  ⟨s.now + e.waitSearch - expirationTimeSeconds, some (ispPrefix e.uninit ip), none⟩

def firstSearch (ip : Text) (e : AddEnv) (s : Server) : Option Mapping :=
  findElement cmpMaps (firstKey ip e s) s.mappingList

/-- an ADD for the address has put this mapping into the list -/
def CreatedBy (ip : IPv4) (m : Mapping) : Prop :=
  ∃ e s sm t, manipulateMapping ip.text e s = some (sm, t) ∧ t.mappingList = s.mappingList ++ [m]

/-- it is the search of manipulateMapping; what it finds is then tested for its lease -/
theorem runningLease_firstSearch (ip : Text) (e : AddEnv) (s : Server) :
    runningLease (ispPrefix e.uninit ip) e s =
      match firstSearch ip e s with
      | none => (none, s.now + e.waitSearch)
      | some m =>
        (if s.now + e.waitSearch + e.waitTest - m.time < expirationTimeSeconds then some m else none,
          s.now + e.waitSearch + e.waitTest) := rfl

/-! ## Octets and bits -/

theorem toNat_bits (ip : IPv4) : ip.bits.toNat = ip.a * 2 ^ 24 + ip.b * 2 ^ 16 + ip.c * 2 ^ 8 + ip.d := by
  rw [IPv4.bits, BitVec.toNat_ofNat]
  omega

/-- the mask takes off the lower six bits -/
theorem masked_octet (d : Fin 256) : ((d &&& 192 : Fin 256) : ℕ) = d / 64 * 64 ∧ (d : ℕ) &&& 192 = d / 64 * 64 := by
  have hall : ∀ d : Fin 256, ((d &&& 192 : Fin 256) : ℕ) = d / 64 * 64 ∧ (d : ℕ) &&& 192 = d / 64 * 64 := by
    decide +kernel
  exact hall d

theorem bits_block (ip : IPv4) : ip.block.bits = ip.bits >>> 6 <<< 6 := by
  apply BitVec.eq_of_toNat_eq
  rw [BitVec.toNat_shiftLeft, BitVec.toNat_ushiftRight, toNat_bits, toNat_bits, Nat.shiftRight_eq_div_pow,
    Nat.shiftLeft_eq]
  have hd := (masked_octet ip.d).1
  simp only [IPv4.block, hd]
  omega

theorem bits_inj {a b : IPv4} (h : a.bits = b.bits) : a = b := by
  have hnum := congrArg BitVec.toNat h
  rw [toNat_bits, toNat_bits] at hnum
  obtain ⟨a1, a2, a3, a4⟩ := a
  obtain ⟨b1, b2, b3, b4⟩ := b
  simp only [IPv4.mk.injEq, Fin.ext_iff] at hnum ⊢
  omega

/-- two addresses of one /26 are two addresses with one first address -/
theorem sameBlock_iff (a b : IPv4) : SameBlock a b ↔ a.block = b.block := by
  refine ⟨?_, ?_⟩
  · intro h
    apply bits_inj
    rw [bits_block, bits_block, h]
  · intro h
    have hblock : a.block.bits >>> 6 = b.block.bits >>> 6 := by rw [h]
    rw [bits_block, bits_block] at hblock
    have hshift (x : BitVec 32) : x >>> 6 <<< 6 >>> 6 = x >>> 6 := by
      apply BitVec.eq_of_toNat_eq
      rw [BitVec.toNat_ushiftRight, BitVec.toNat_shiftLeft, BitVec.toNat_ushiftRight, Nat.shiftRight_eq_div_pow,
        Nat.shiftLeft_eq, Nat.shiftRight_eq_div_pow]
      omega
    rwa [hshift, hshift] at hblock

/-! ## The key -/

/-- the key is the first address of the /26 and the length of its prefix -/
theorem ispPrefix_block (uninit : List ℤ) (ip : IPv4) :
    ispPrefix uninit ip.text = ip.block.text ++ "/26".toList := by
  have hmask : (ip.d : ℕ) &&& 192 = ((ip.d &&& 192 : Fin 256) : ℕ) := by
    rw [(masked_octet ip.d).1, (masked_octet ip.d).2]
  rw [ispPrefix_address, hmask]
  simp [IPv4.text, IPv4.block]

/-- **The key is read back.** -/
theorem scanDotted_ispPrefix (uninit : List ℤ) (ip : IPv4) : scanDotted 4 (ispPrefix uninit ip.text) =
    [(ip.block.a : ℤ), (ip.block.b : ℤ), (ip.block.c : ℤ), (ip.block.d : ℤ)] := by
  have hslash : ∀ c ∈ "/26".toList.head?, c.isDigit = false := by
    intro c hc
    cases hc
    rfl
  rw [ispPrefix_block]
  exact scanDotted_text ip.block _ hslash

theorem ispPrefix_eq_iff (uninit uninit' : List ℤ) (a b : IPv4) :
    ispPrefix uninit a.text = ispPrefix uninit' b.text ↔ SameBlock a b := by
  rw [sameBlock_iff]
  refine ⟨?_, ?_⟩
  · intro h
    have hscan := congrArg (scanDotted 4) h
    rw [scanDotted_ispPrefix, scanDotted_ispPrefix] at hscan
    simp only [List.cons.injEq, Nat.cast_inj, Fin.val_inj, and_true] at hscan
    obtain ⟨ha, hb, hc, hd⟩ := hscan
    calc
      a.block = ⟨a.block.a, a.block.b, a.block.c, a.block.d⟩ := rfl
      _ = b.block := by rw [ha, hb, hc, hd]
  · intro h
    rw [ispPrefix_block, ispPrefix_block, h]

/-! ## The first search of an ADD -/

theorem ispPrefix_of_created {ip : IPv4} {m : Mapping} (h : CreatedBy ip m) (uninit : List ℤ) :
    m.ispPrefix = ispPrefix uninit ip.text := by
  obtain ⟨e, s, sm, t, hadd, hlist⟩ := h
  rcases manipulateMapping_some hadd with ⟨m', -, -, -, ht⟩ | ⟨pub, now, now', -, -, -, rfl⟩
  · rw [ht] at hlist
    simp at hlist
  · have hm := List.append_cancel_left hlist
    rw [List.cons.injEq] at hm
    rw [← hm.1, ispPrefix_address, ispPrefix_address]

/-- an entry at most EXPIRATIONTIMESECONDS old is in the window -/
theorem inWindow_of_age {m : Mapping} {now : ℤ} {age : ℕ} (hage : m.time + age = now)
    (hle : (age : ℤ) ≤ expirationTimeSeconds) : InWindow (now - expirationTimeSeconds) m := by
  unfold InWindow
  unfold expirationTimeSeconds at *
  rw [wrap32_of_lt (by norm_num; omega) (by norm_num; omega)]
  omega

/-- **Same subnet, same lease key.** For all addresses: their keys are one text exactly when they agree in the upper 26
bits; the key reads back as the first address of the /26; and the first search of an ADD for `b` matches a mapping of
`a`, at most EXPIRATIONTIMESECONDS old, exactly when they are of one /26. It finds that mapping if none in front of it
matches. -/
theorem same_subnet_same_lease (a b : IPv4) :
    (∀ uninit uninit', ispPrefix uninit a.text = ispPrefix uninit' b.text ↔ a.bits >>> 6 = b.bits >>> 6) ∧
    (∀ uninit, ∃ block : IPv4, block.bits = a.bits >>> 6 <<< 6 ∧
      scanDotted 4 (ispPrefix uninit a.text) = [(block.a : ℤ), (block.b : ℤ), (block.c : ℤ), (block.d : ℤ)]) ∧
    ∀ (m : Mapping) (e : AddEnv) (s : Server) (age : ℕ), CreatedBy a m → m.time + age = s.now + e.waitSearch →
      (age : ℤ) ≤ expirationTimeSeconds →
        (cmpMaps (firstKey b.text e s) m = 0 ↔ a.bits >>> 6 = b.bits >>> 6) ∧
        ∀ pre post, s.mappingList = pre ++ m :: post → (∀ x ∈ pre, cmpMaps (firstKey b.text e s) x ≠ 0) →
          (firstSearch b.text e s = some m ↔ a.bits >>> 6 = b.bits >>> 6) := by
  refine ⟨fun uninit uninit' => ispPrefix_eq_iff uninit uninit' a b, ?_, ?_⟩
  · intro uninit
    exact ⟨a.block, bits_block a, scanDotted_ispPrefix uninit a⟩
  · intro m e s age hcreated hage hle
    have hmatch : cmpMaps (firstKey b.text e s) m = 0 ↔ a.bits >>> 6 = b.bits >>> 6 := by
      rw [firstKey, cmpMaps_ofPrefix, ispPrefix_of_created hcreated e.uninit,
        and_iff_left (inWindow_of_age hage hle)]
      exact ispPrefix_eq_iff _ _ a b
    refine ⟨hmatch, ?_⟩
    intro pre post hlist hpre
    rw [← hmatch, firstSearch, hlist]
    refine ⟨fun h => (findElement_some h).2, ?_⟩
    intro hcmp
    rw [findElement_eq_find?, List.find?_append, List.find?_eq_none.2 (by simpa using hpre),
      List.find?_cons_of_pos (by simpa using hcmp), Option.none_or]

end NetSec.NatServer
