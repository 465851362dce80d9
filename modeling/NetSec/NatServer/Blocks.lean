/-
The mappings as blocks of the heap (NAT/NATServer.c, lines 305-365, 426-606 and 616-649).

`Blocks` is the threads of `Threads` with pointers. A Mapping has a number that no other has had: a pointer to a freed
block is good for nothing, also where its bytes are in use again. It is up to three blocks (`Part`): the structure and
the two strings that it points to. A ban is a Mapping whose `publicIP` nothing sets (`none`). Fields are set before it
is inserted, and never again. The other blocks of a request (its text, search keys, commands) are its handler's own and
are left out.

As in `Threads`, each operation on a list is one step. In the program the cleaner's lock is a copy, so that a pop can
overlap with an operation of a handler (`lists_exclusive_iff` says when); of runs in which two do, nothing is said here.

`findElement` gives the handler the address of its match, which it reads when the lock is free again: `time` for the
comparison, then all of it for the answer, two steps between which anything may happen. A cleaner reads the head without
the lock, and frees what it has popped when its commands are through: handleExpiredMap frees all three blocks,
handleExpiredBan leaves the string `ispPrefix`, and passes to free a `publicIP` that nothing has set. What a freed
number has stood for stays as it was here; `accesses` says which blocks a step reads or frees, whether it may or not.

- `blockEffect`, `cleanerStep_cases`: a step makes a Mapping, or hands one on, or leaves them all where they are;
- `placed_step`: so every Mapping is at one place (`Place`, `holding`): with the handler that has made it, in a list,
  with a cleaner, or freed.
-/
import NetSec.Core.Ownership
import NetSec.NatServer.Cleaning

namespace NetSec.NatServer

open NetSec.Ownership NetSec.Run

/-! ## Model -/

structure Block where
  time : ℤ
  ispPrefix : Text
  /-- `none`: what malloc has left there -/
  publicIP : Option Text
deriving DecidableEq, Repr

def Block.mapping (b : Block) : Mapping := ⟨b.time, b.ispPrefix, b.publicIP.getD []⟩

def Block.ban (b : Block) : Ban := ⟨b.time, b.ispPrefix⟩

/-- the blocks of a Mapping: the structure and its strings -/
inductive Part where
  | struct
  | ispPrefix
  | publicIP
deriving DecidableEq, Repr

/-- what handleExpiredMap frees -/
def expiredMapFrees : List Part := [.ispPrefix, .publicIP, .struct]

/-- what handleExpiredBan frees -/
def expiredBanFrees : List Part := [.publicIP, .struct]

/-- the Mappings whose structures are among these blocks -/
def structs (l : List (ℕ × Part)) : List ℕ := l.filterMap fun q => if q.2 = .struct then some q.1 else none

/-- what a handler does next, with its local variables: addresses where `Pc` has mappings -/
inductive BlockPc where
  | idle
  | addStart (isp : Text)
  | addSearch (isp : Text) (t0 : ℤ)
  /-- ADD: read the clock for the test of the match -/
  | addTest (isp : Text) (t0 : ℤ) (found : ℕ)
  /-- ADD: read the match's time -/
  | addCompare (isp : Text) (t0 : ℤ) (found : ℕ) (timeNow : ℤ)
  /-- ADD: copy the match's public address -/
  | addCopy (isp : Text) (t0 : ℤ) (found : ℕ) (timeNow : ℤ)
  | addDraw (isp : Text) (t0 : ℤ)
  | addProbe (isp : Text) (t0 : ℤ) (pub : Text)
  | addRules (isp pub : Text) (calls : Calls)
  | addStamp (isp pub : Text)
  | addInsert (isp pub : Text) (map : ℕ)
  | addReply (isp : Text) (sm : SuccessMapping)
  | banRules (ip : Text) (calls : Calls)
  | banStamp (ip : Text)
  | banInsert (ip : Text) (map : ℕ)
  | banReply (ip : Text)
deriving DecidableEq, Repr

structure Blocks where
  now : ℤ
  fw : Firewall
  /-- all Mappings so far, by their numbers -/
  heap : List Block
  /-- what has been passed to free -/
  freed : List (ℕ × Part)
  mappingList : List ℕ
  bannedList : List ℕ
  acks : List Ack
  handler : ℕ → BlockPc
  mappingCleaner : CleanerPc ℕ
  banCleaner : CleanerPc ℕ

namespace Blocks

def block (x : Blocks) (a : ℕ) : Block := (x.heap[a]?).getD ⟨0, [], none⟩

def mapping (x : Blocks) (a : ℕ) : Mapping := (x.block a).mapping

def ban (x : Blocks) (a : ℕ) : Ban := (x.block a).ban

def time (x : Blocks) (a : ℕ) : ℤ := (x.block a).time

/-- cmpMaps on an element of the list -/
def cmp (x : Blocks) (key : SearchMap) (a : ℕ) : ℕ := cmpMaps key (x.mapping a)

/-- the Mappings that are freed -/
def gone (x : Blocks) : List ℕ := structs x.freed

/-- the block has been allocated -/
def Allocated (x : Blocks) (q : ℕ × Part) : Prop :=
  q.1 < x.heap.length ∧ (q.2 = .publicIP → (x.block q.1).publicIP ≠ none)

def setHandler (x : Blocks) (i : ℕ) (pc : BlockPc) : Blocks := { x with handler := Function.update x.handler i pc }

end Blocks

/-- one step of a handler -/
def blockHandler (rand : ℕ) (x : Blocks) : BlockPc → Option (BlockPc × Blocks)
  | .idle => none
  | .addStart isp => some (.addSearch isp x.now, x)
  | .addSearch isp t0 =>
    match findElement x.cmp ⟨t0 - expirationTimeSeconds, some isp, none⟩ x.mappingList with
    | none => some (.addDraw isp t0, x)
    | some found => some (.addTest isp t0 found, x)
  | .addTest isp t0 found => some (.addCompare isp t0 found x.now, x)
  | .addCompare isp t0 found timeNow =>
    if timeNow - x.time found < expirationTimeSeconds then some (.addCopy isp t0 found timeNow, x)
    else some (.addDraw isp t0, x)
  | .addCopy isp _ found timeNow =>
    some (.addReply isp ⟨(x.mapping found).publicIP, expirationTimeSeconds - (timeNow - x.time found)⟩, x)
  | .addDraw isp t0 => some (.addProbe isp t0 (fluxAddress rand), x)
  | .addProbe isp t0 pub =>
    match findElement x.cmp ⟨t0 - expirationTimeSeconds, none, some pub⟩ x.mappingList with
    | some _ => some (.addDraw isp t0, x)
    | none => some (.addRules isp pub ⟨mappingCalls isp pub, none⟩, x)
  | .addRules isp pub calls =>
    match callStep x.fw calls with
    | some (calls, fw) => some (.addRules isp pub calls, { x with fw := fw })
    | none => some (.addStamp isp pub, x)
  | .addStamp isp pub =>
    some (.addInsert isp pub x.heap.length, { x with heap := x.heap ++ [⟨x.now, isp, some pub⟩] })
  | .addInsert isp pub map =>
    some (.addReply isp ⟨pub, expirationTimeSeconds⟩, { x with mappingList := x.mappingList ++ [map] })
  | .addReply isp sm => some (.idle, { x with acks := x.acks ++ [.lease isp sm.mappedIP sm.mapTTL x.now] })
  | .banRules ip calls =>
    match callStep x.fw calls with
    | some (calls, fw) => some (.banRules ip calls, { x with fw := fw })
    | none => some (.banStamp ip, x)
  | .banStamp ip => some (.banInsert ip x.heap.length, { x with heap := x.heap ++ [⟨x.now, ip, none⟩] })
  | .banInsert ip map => some (.banReply ip, { x with bannedList := x.bannedList ++ [map] })
  | .banReply ip =>
    some (.idle, { x with acks := x.acks ++ [.ban ip (expirationTimeSeconds + gracePeriodSeconds) x.now] })

/-- what a cleaner holds: the element that it has popped -/
def CleanerPc.popped {α : Type} : CleanerPc α → List α
  | .acting _ (some popped) _ => [popped]
  | _ => []

/-- what its next step frees: the commands are through -/
def CleanerPc.freeing {α : Type} : CleanerPc α → List α
  | .acting _ (some popped) ⟨[], _⟩ => [popped]
  | _ => []

def blockStep (x : Blocks) : ThreadOp → Option Blocks
  | .wait d => some { x with now := x.now + d }
  | .recvAdd i ip uninit =>
    if x.handler i = .idle then some (x.setHandler i (.addStart (ispPrefix uninit ip))) else none
  | .recvBan i ip => if x.handler i = .idle then some (x.setHandler i (.banRules ip ⟨banCalls ip, none⟩)) else none
  | .handle i rand => (blockHandler rand x (x.handler i)).map fun (pc, y) => y.setHandler i pc
  | .cleanMapping =>
    (cleanerStep x.time (fun a => expiredMapCalls (x.mapping a)) x.now x.mappingList x.fw x.mappingCleaner).map
      fun (pc, list, fw) =>
        { x with
          mappingList := list
          fw := fw
          mappingCleaner := pc
          freed := x.freed ++ x.mappingCleaner.freeing ×ˢ expiredMapFrees }
  | .cleanBan =>
    (cleanerStep x.time (fun a => expiredBanCalls (x.ban a)) x.now x.bannedList x.fw x.banCleaner).map
      fun (pc, list, fw) =>
        { x with
          bannedList := list
          fw := fw
          banCleaner := pc
          freed := x.freed ++ x.banCleaner.freeing ×ˢ expiredBanFrees }

/-- main's lists, still empty -/
def startBlocks (now : ℤ) (fw : Firewall) : Blocks := ⟨now, fw, [], [], [], [], [], fun _ => .idle, .top, .top⟩

/-! ## What is read -/

/-- the elements that findElement compares: up to its match -/
def scanned {α β : Type} (cmp : β → α → ℕ) (elm1 : β) : List α → List α
  | [] => []
  | elm :: rest => if cmp elm1 elm = 0 then [elm] else elm :: scanned cmp elm1 rest

/-- a cleaner reads the head's time, and of what it has popped also `strings`, for its commands -/
def CleanerPc.reads (strings : List Part) (list : List ℕ) : CleanerPc ℕ → List (ℕ × Part)
  | .headSeen => list.head?.toList ×ˢ [.struct]
  | .acting _ popped _ => popped.toList ×ˢ (.struct :: strings)
  | _ => []

/-- what the handler reads of its match -/
def BlockPc.reads : BlockPc → List (ℕ × Part)
  | .addCompare _ _ found _ => [found] ×ˢ [.struct]
  | .addCopy _ _ found _ => [found] ×ˢ [.struct, .publicIP]
  | _ => []

/-- the blocks that a step reads or passes to free -/
def accesses (x : Blocks) : ThreadOp → List (ℕ × Part)
  | .handle i _ =>
    match x.handler i with
    | .addSearch isp t0 =>
      scanned x.cmp ⟨t0 - expirationTimeSeconds, some isp, none⟩ x.mappingList ×ˢ [.struct, .ispPrefix]
    | .addProbe _ t0 pub =>
      scanned x.cmp ⟨t0 - expirationTimeSeconds, none, some pub⟩ x.mappingList ×ˢ [.struct, .publicIP]
    | pc => pc.reads
  | .cleanMapping =>
    x.mappingCleaner.reads [.ispPrefix, .publicIP] x.mappingList ++ x.mappingCleaner.freeing ×ˢ expiredMapFrees
  | .cleanBan => x.banCleaner.reads [.ispPrefix] x.bannedList ++ x.banCleaner.freeing ×ˢ expiredBanFrees
  | _ => []

theorem structs_append (l l' : List (ℕ × Part)) : structs (l ++ l') = structs l ++ structs l' := List.filterMap_append

/-- with each Mapping its structure is freed, once -/
theorem structs_product {parts : List Part} (h : ∀ a : ℕ, structs (parts.map (Prod.mk a)) = [a]) (l : List ℕ) :
    structs (l ×ˢ parts) = l := by
  induction l with
  | nil => rfl
  | cons a l ih => rw [List.product_cons, structs_append, h, ih, List.singleton_append]

theorem gone_mapping (freed : List (ℕ × Part)) (l : List ℕ) :
    structs (freed ++ l ×ˢ expiredMapFrees) = structs freed ++ l := by
  rw [structs_append, structs_product fun _ => rfl]

theorem gone_ban (freed : List (ℕ × Part)) (l : List ℕ) :
    structs (freed ++ l ×ˢ expiredBanFrees) = structs freed ++ l := by
  rw [structs_append, structs_product fun _ => rfl]

theorem scanned_subset {α β : Type} (cmp : β → α → ℕ) (elm1 : β) (l : List α) : scanned cmp elm1 l ⊆ l := by
  induction l with
  | nil => exact List.Subset.refl _
  | cons elm rest ih =>
    rw [scanned]
    split_ifs
    · simp
    · exact List.cons_subset_cons elm ih

/-! ## What each step does -/

/-- the Mapping that a handler has made and not yet inserted -/
def BlockPc.made : BlockPc → List ℕ
  | .addInsert _ _ map => [map]
  | .banInsert _ map => [map]
  | _ => []

theorem blockStep_handle {x y : Blocks} {i rand : ℕ} (h : blockStep x (.handle i rand) = some y) :
    ∃ pc z, blockHandler rand x (x.handler i) = some (pc, z) ∧ y = z.setHandler i pc := by
  simp only [blockStep, Option.map_eq_some_iff] at h
  obtain ⟨⟨pc, z⟩, hs, rfl⟩ := h
  exact ⟨pc, z, hs, rfl⟩

/-- a handler's step leaves the other threads where they are -/
theorem blockHandler_frame {rand : ℕ} {x z : Blocks} {pc pc' : BlockPc} (h : blockHandler rand x pc = some (pc', z)) :
    z.handler = x.handler ∧ z.mappingCleaner = x.mappingCleaner ∧ z.banCleaner = x.banCleaner := by
  cases pc with
  | idle => cases h
  | addSearch isp t0 | addProbe isp t0 pub | addRules isp pub calls | banRules ip calls
  | addCompare isp t0 found timeNow =>
    simp only [blockHandler] at h
    split at h <;> obtain ⟨rfl, rfl⟩ := Prod.mk.inj (Option.some.inj h) <;> exact ⟨rfl, rfl, rfl⟩
  | _ =>
    obtain ⟨rfl, rfl⟩ := Prod.mk.inj (Option.some.inj h)
    exact ⟨rfl, rfl, rfl⟩

/-- what a step can do with the Mappings -/
inductive BlockEffect (x : Blocks) : Blocks → Prop where
  | clock (d : ℕ) : BlockEffect x { x with now := x.now + d }
  /-- a handler neither has nor makes one: at most the rules and the ACKs change -/
  | turn {i : ℕ} {pc : BlockPc} (had : (x.handler i).made = []) (made : pc.made = []) (fw : Firewall)
      (acks : List Ack) : BlockEffect x (Blocks.setHandler { x with fw := fw, acks := acks } i pc)
  | malloc {i : ℕ} {pc : BlockPc} {b : Block} (had : (x.handler i).made = []) (made : pc.made = [x.heap.length])
      (stamp : b.time = x.now) : BlockEffect x (Blocks.setHandler { x with heap := x.heap ++ [b] } i pc)
  | insertMapping {i : ℕ} {isp pub : Text} {map : ℕ} (had : x.handler i = .addInsert isp pub map) :
      BlockEffect x (Blocks.setHandler { x with mappingList := x.mappingList ++ [map] } i
        (.addReply isp ⟨pub, expirationTimeSeconds⟩))
  | insertBan {i : ℕ} {ip : Text} {map : ℕ} (had : x.handler i = .banInsert ip map) :
      BlockEffect x (Blocks.setHandler { x with bannedList := x.bannedList ++ [map] } i (.banReply ip))
  | cleanMapping {pc : CleanerPc ℕ} {list : List ℕ} {fw : Firewall}
      (clean : cleanerStep x.time (fun a => expiredMapCalls (x.mapping a)) x.now x.mappingList x.fw x.mappingCleaner =
        some (pc, list, fw)) :
      BlockEffect x { x with
        mappingList := list
        fw := fw
        mappingCleaner := pc
        freed := x.freed ++ x.mappingCleaner.freeing ×ˢ expiredMapFrees }
  | cleanBan {pc : CleanerPc ℕ} {list : List ℕ} {fw : Firewall}
      (clean : cleanerStep x.time (fun a => expiredBanCalls (x.ban a)) x.now x.bannedList x.fw x.banCleaner =
        some (pc, list, fw)) :
      BlockEffect x { x with
        bannedList := list
        fw := fw
        banCleaner := pc
        freed := x.freed ++ x.banCleaner.freeing ×ˢ expiredBanFrees }

theorem blockEffect_handle {x z : Blocks} {i rand : ℕ} {pc : BlockPc}
    (h : blockHandler rand x (x.handler i) = some (pc, z)) : BlockEffect x (z.setHandler i pc) := by
  cases hpc : x.handler i <;> rw [hpc] at h
  case idle => cases h
  case addStamp isp pub | banStamp ip =>
    obtain ⟨rfl, rfl⟩ := Prod.mk.inj (Option.some.inj h)
    exact .malloc (by rw [hpc]; rfl) rfl rfl
  case addInsert isp pub map =>
    obtain ⟨rfl, rfl⟩ := Prod.mk.inj (Option.some.inj h)
    exact .insertMapping hpc
  case banInsert ip map =>
    obtain ⟨rfl, rfl⟩ := Prod.mk.inj (Option.some.inj h)
    exact .insertBan hpc
  case addSearch | addProbe | addRules | banRules | addCompare =>
    simp only [blockHandler] at h
    split at h <;> obtain ⟨rfl, rfl⟩ := Prod.mk.inj (Option.some.inj h) <;>
      exact .turn (by rw [hpc]; rfl) rfl _ _
  all_goals
    obtain ⟨rfl, rfl⟩ := Prod.mk.inj (Option.some.inj h)
    exact .turn (by rw [hpc]; rfl) rfl _ _

/-- **What a step does with the Mappings**: a handler makes one, or inserts the one that it has made; a cleaner takes a
step; or they all stay where they are. -/
theorem blockEffect {x y : Blocks} {o : ThreadOp} (h : blockStep x o = some y) : BlockEffect x y := by
  cases o with
  | wait d =>
    obtain rfl := Option.some.inj h
    exact .clock d
  | recvAdd i ip uninit | recvBan i ip =>
    simp only [blockStep] at h
    split_ifs at h with hidle
    obtain rfl := Option.some.inj h
    exact .turn (by rw [hidle]; rfl) rfl x.fw x.acks
  | handle i rand =>
    obtain ⟨pc, z, hz, rfl⟩ := blockStep_handle h
    exact blockEffect_handle hz
  | cleanMapping =>
    simp only [blockStep, Option.map_eq_some_iff] at h
    obtain ⟨⟨pc, list, fw⟩, hc, rfl⟩ := h
    exact .cleanMapping hc
  | cleanBan =>
    simp only [blockStep, Option.map_eq_some_iff] at h
    obtain ⟨⟨pc, list, fw⟩, hc, rfl⟩ := h
    exact .cleanBan hc

/-- **A cleaner's step** leaves the elements where they are, or pops the head, or frees what it has popped. -/
theorem cleanerStep_cases {α : Type} {time : α → ℤ} {action : α → List Call} {now : ℤ} {list list' : List α}
    {fw fw' : Firewall} {pc pc' : CleanerPc α}
    (h : cleanerStep time action now list fw pc = some (pc', list', fw')) :
    (list' = list ∧ pc'.popped = pc.popped ∧ pc.freeing = []) ∨
      (∃ a, list = a :: list' ∧ pc.popped = [] ∧ pc'.popped = [a] ∧ pc.freeing = []) ∨
      ∃ a, list' = list ∧ pc.popped = [a] ∧ pc'.popped = [] ∧ pc.freeing = [a] := by
  cases pc with
  | top =>
    simp only [cleanerStep, Option.some.injEq, Prod.mk.injEq] at h
    obtain ⟨rfl, rfl, rfl⟩ := h
    refine Or.inl ⟨rfl, ?_, rfl⟩
    split_ifs <;> rfl
  | headSeen =>
    simp only [cleanerStep, Option.map_eq_some_iff, Prod.mk.injEq] at h
    obtain ⟨elm, -, rfl, rfl, rfl⟩ := h
    exact Or.inl ⟨rfl, rfl, rfl⟩
  | waiting elm =>
    simp only [cleanerStep, Option.some.injEq, Prod.mk.injEq] at h
    obtain ⟨rfl, rfl, rfl⟩ := h
    refine Or.inl ⟨rfl, ?_, rfl⟩
    split_ifs <;> rfl
  | popping elm =>
    cases list with
    | nil =>
      simp only [cleanerStep, popElement, Option.some.injEq, Prod.mk.injEq] at h
      obtain ⟨rfl, rfl, rfl⟩ := h
      exact Or.inl ⟨rfl, rfl, rfl⟩
    | cons head rest =>
      simp only [cleanerStep, popElement, Option.some.injEq, Prod.mk.injEq] at h
      obtain ⟨rfl, rfl, rfl⟩ := h
      exact Or.inr (Or.inl ⟨head, rfl, rfl, rfl, rfl⟩)
  | acting waited popped calls =>
    cases popped with
    | none => cases h
    | some popped =>
      obtain ⟨pending, status⟩ := calls
      cases pending with
      | nil =>
        simp only [cleanerStep, callStep, Option.some.injEq, Prod.mk.injEq] at h
        obtain ⟨rfl, rfl, rfl⟩ := h
        exact Or.inr (Or.inr ⟨popped, rfl, rfl, rfl, rfl⟩)
      | cons c cs =>
        simp only [cleanerStep] at h
        split at h
        · obtain ⟨rfl, rfl, rfl⟩ : _ ∧ _ ∧ _ := by simpa using h
          exact Or.inl ⟨rfl, rfl, rfl⟩
        · rename_i hnone
          cases status <;> simp [callStep] at hnone
          split_ifs at hnone

/-! ## Who holds a Mapping -/

inductive Place where
  | handler (i : ℕ)
  | mappingList
  | bannedList
  | mappingCleaner
  | banCleaner
  | freed
deriving DecidableEq, Repr

def Blocks.holding (x : Blocks) : Place → List ℕ
  | .handler i => (x.handler i).made
  | .mappingList => x.mappingList
  | .bannedList => x.bannedList
  | .mappingCleaner => x.mappingCleaner.popped
  | .banCleaner => x.banCleaner.popped
  | .freed => x.gone

/-- every Mapping is at one place -/
def Blocks.Placed (x : Blocks) : Prop := Accounted (· < x.heap.length) x.holding

section Held

variable {x y : Blocks} {i : ℕ}

/-- of the places only the handler's and those that `z` changes hold something else -/
theorem holding_setHandler (z : Blocks) (i : ℕ) (pc : BlockPc) (m : Place) :
    (z.setHandler i pc).holding m = if m = .handler i then pc.made else z.holding m := by
  cases m with
  | handler j =>
    by_cases hj : j = i
    · subst hj
      simp [Blocks.holding, Blocks.setHandler]
    · simp [Blocks.holding, Blocks.setHandler, hj]
  | _ => rfl

/-- the handler gives away what it has made -/
theorem placed_insert {l : Place} {map : ℕ} (h : x.Placed) (hheap : y.heap = x.heap) (hl : Place.handler i ≠ l)
    (hmade : x.holding (.handler i) = [map]) (hgave : y.holding (.handler i) = [])
    (hgained : y.holding l = x.holding l ++ [map])
    (hframe : ∀ m, m ≠ .handler i → m ≠ l → y.holding m = x.holding m) : y.Placed := by
  unfold Blocks.Placed
  rw [hheap]
  exact h.of_moves ⟨hl, by rw [hmade, hgave], hgained, hframe⟩

/-- a step of the cleaner at place `c` of the list at place `l` -/
theorem placed_clean {time : ℕ → ℤ} {action : ℕ → List Call} {l c : Place} {list list' : List ℕ} {fw fw' : Firewall}
    {pc pc' : CleanerPc ℕ} (h : x.Placed) (hheap : y.heap = x.heap) (hlc : l ≠ c) (hcf : c ≠ .freed)
    (hstep : cleanerStep time action x.now list fw pc = some (pc', list', fw'))
    (hlist : x.holding l = list) (hcleaner : x.holding c = pc.popped) (hlist' : y.holding l = list')
    (hcleaner' : y.holding c = pc'.popped) (hfreed : y.holding .freed = x.holding .freed ++ pc.freeing)
    (hframe : ∀ m, m ≠ l → m ≠ c → m ≠ .freed → y.holding m = x.holding m) : y.Placed := by
  unfold Blocks.Placed
  rw [hheap]
  rcases cleanerStep_cases hstep with ⟨rfl, hpopped, hfree⟩ | ⟨a, rfl, hpopped, hpopped', hfree⟩ |
    ⟨a, rfl, hpopped, hpopped', hfree⟩
  all_goals rw [hfree] at hfreed
  · refine Accounted.congr h (fun _ => Iff.rfl) ?_
    intro m
    by_cases hml : m = l
    · rw [hml, hlist', hlist]
    by_cases hmc : m = c
    · rw [hmc, hcleaner', hcleaner, hpopped]
    by_cases hmf : m = .freed
    · rw [hmf, hfreed, List.append_nil]
    exact hframe m hml hmc hmf
  · refine h.of_moves (k := l) (l := c) (b := a) ⟨hlc, by rw [hlist, hlist'], ?_, ?_⟩
    · rw [hcleaner', hpopped', hcleaner, hpopped]
      rfl
    · intro m hml hmc
      by_cases hmf : m = .freed
      · rw [hmf, hfreed, List.append_nil]
      exact hframe m hml hmc hmf
  · refine h.of_moves (k := c) (l := .freed) (b := a) ⟨hcf, ?_, hfreed, ?_⟩
    · rw [hcleaner, hpopped, hcleaner', hpopped']
    · intro m hmc hmf
      by_cases hml : m = l
      · rw [hml, hlist', hlist]
      exact hframe m hml hmc hmf

/-- **Every Mapping stays at one place.** -/
theorem placed_step {o : ThreadOp} (h : x.Placed) (hs : blockStep x o = some y) : y.Placed := by
  cases blockEffect hs with
  | clock d => exact Accounted.congr h (fun _ => Iff.rfl) fun m => by cases m <;> rfl
  | @turn i pc had made fw acks =>
    refine Accounted.congr h (fun _ => Iff.rfl) ?_
    intro m
    rw [holding_setHandler]
    split_ifs with hm
    · rw [hm, made]
      exact had.symm
    · cases m <;> rfl
  | @malloc i pc b had made stamp =>
    have hissue : Issues x.holding (Blocks.setHandler { x with heap := x.heap ++ [b] } i pc).holding (.handler i)
        x.heap.length := by
      refine ⟨?_, ?_⟩
      · rw [holding_setHandler, if_pos rfl, made, Blocks.holding, had]
        rfl
      · intro m hm
        rw [holding_setHandler, if_neg hm]
        cases m <;> rfl
    refine h.of_issues hissue (lt_irrefl _) ?_
    intro a
    simp only [Blocks.setHandler, List.length_append, List.length_singleton]
    omega
  | insertMapping had =>
    refine placed_insert (l := .mappingList) h rfl (by simp) (congrArg BlockPc.made had) ?_ rfl ?_
    · rw [holding_setHandler, if_pos rfl]
      rfl
    · intro m hm hm'
      rw [holding_setHandler, if_neg hm]
      cases m with
      | mappingList => exact absurd rfl hm'
      | _ => rfl
  | insertBan had =>
    refine placed_insert (l := .bannedList) h rfl (by simp) (congrArg BlockPc.made had) ?_ rfl ?_
    · rw [holding_setHandler, if_pos rfl]
      rfl
    · intro m hm hm'
      rw [holding_setHandler, if_neg hm]
      cases m with
      | bannedList => exact absurd rfl hm'
      | _ => rfl
  | cleanMapping clean =>
    refine placed_clean (l := .mappingList) (c := .mappingCleaner) h rfl (by simp) (by simp) clean
      rfl rfl rfl rfl (gone_mapping x.freed x.mappingCleaner.freeing) ?_
    intro m
    cases m <;> simp [Blocks.holding]
  | cleanBan clean =>
    refine placed_clean (l := .bannedList) (c := .banCleaner) h rfl (by simp) (by simp) clean rfl rfl rfl rfl
      (gone_ban x.freed x.banCleaner.freeing) ?_
    intro m
    cases m <;> simp [Blocks.holding]

theorem placed_start (now : ℤ) (fw : Firewall) : (startBlocks now fw).Placed :=
  accounted_nil (fun _ => Nat.not_lt_zero _) fun m => by cases m <;> rfl

end Held

end NetSec.NatServer
