/-
What the pointers point to: the threads with blocks are the threads with mappings (NAT/NATServer.c, lines 426-606 and
616-649).

`view` looks through the pointers of `Blocks`. A handler that has read the clock for its match has its answer: what it
still reads is fixed, whether the block is freed meanwhile or not. So the two steps that read the match are no steps of
`Threads`, and every other step is the same step there (`blockStep_view`).

- `blocks_accounted`: in every reachable state the view is a state that `Threads` reaches from the same start; a Mapping
  is at one place, and freed, once, when nothing is going on and the lists are empty; but a ban's string `ispPrefix` is
  never freed, and the cleaner of bans frees a `publicIP` that nothing has set.
-/
import NetSec.NatServer.FreedBlocks

namespace NetSec.NatServer

open NetSec.Ownership NetSec.Run

/-! ## Through the pointers -/

def CleanerPc.map {α β : Type} (f : α → β) : CleanerPc α → CleanerPc β
  | .top => .top
  | .headSeen => .headSeen
  | .waiting elm => .waiting (f elm)
  | .popping elm => .popping (f elm)
  | .acting waited popped calls => .acting (f waited) (popped.map f) calls

namespace Blocks

def viewPc (x : Blocks) : BlockPc → Pc
  | .idle => .idle
  | .addStart isp => .addStart isp
  | .addSearch isp t0 => .addSearch isp t0
  | .addTest isp t0 found => .addTest isp t0 (x.mapping found)
  | .addCompare isp t0 found timeNow =>
    if timeNow - x.time found < expirationTimeSeconds then
      .addReply isp ⟨(x.mapping found).publicIP, expirationTimeSeconds - (timeNow - x.time found)⟩
    else .addDraw isp t0
  | .addCopy isp _ found timeNow =>
    .addReply isp ⟨(x.mapping found).publicIP, expirationTimeSeconds - (timeNow - x.time found)⟩
  | .addDraw isp t0 => .addDraw isp t0
  | .addProbe isp t0 pub => .addProbe isp t0 pub
  | .addRules isp pub calls => .addRules isp pub calls
  | .addStamp isp pub => .addStamp isp pub
  | .addInsert _ _ map => .addInsert (x.mapping map)
  | .addReply isp sm => .addReply isp sm
  | .banRules ip calls => .banRules ip calls
  | .banStamp ip => .banStamp ip
  | .banInsert _ map => .banInsert (x.ban map)
  | .banReply ip => .banReply ip

def viewSrv (x : Blocks) : Server := ⟨x.now, x.fw, x.mappingList.map x.mapping, x.bannedList.map x.ban, x.acks⟩

def view (x : Blocks) : Threads :=
  ⟨x.viewSrv, fun i => x.viewPc (x.handler i), x.mappingCleaner.map x.mapping, x.banCleaner.map x.ban⟩

end Blocks

/-! ## Step by step -/

theorem findElement_map {α β γ : Type} (f : α → β) (cmp : γ → β → ℕ) (elm1 : γ) (l : List α) :
    findElement cmp elm1 (l.map f) = (findElement (fun key a => cmp key (f a)) elm1 l).map f := by
  induction l with
  | nil => rfl
  | cons a rest ih =>
    rw [List.map_cons, findElement, findElement]
    split_ifs
    · rfl
    · exact ih

theorem cleanerStep_map {α β : Type} (f : α → β) (time : β → ℤ) (action : β → List Call) (now : ℤ) (l : List α)
    (fw : Firewall) (pc : CleanerPc α) :
    cleanerStep time action now (l.map f) fw (pc.map f) =
      (cleanerStep (fun a => time (f a)) (fun a => action (f a)) now l fw pc).map
        fun (pc, l, fw) => (pc.map f, l.map f, fw) := by
  cases pc with
  | top => cases l <;> rfl
  | headSeen => cases l <;> rfl
  | waiting elm =>
    simp only [CleanerPc.map, cleanerStep, Option.map_some]
    split_ifs <;> rfl
  | popping elm => cases l <;> rfl
  | acting waited popped calls =>
    cases popped with
    | none => rfl
    | some popped =>
      simp only [CleanerPc.map, Option.map_some, cleanerStep]
      cases callStep fw calls <;> rfl

section Step

variable {start : ℤ} {x y : Blocks}

/-- what a later state looks like through the same pointers -/
theorem viewPc_later {pc : BlockPc} (hplaced : x.Placed) (hok : HandlerOk x pc)
    (hmade : ∀ a ∈ pc.made, a < x.heap.length) (hlater : Later x y) : y.viewPc pc = x.viewPc pc := by
  cases pc with
  | addTest isp t0 found | addCompare isp t0 found _ | addCopy isp t0 found _ =>
    have hlt := listed_lt hplaced hok.2.listed
    have hmap : y.mapping found = x.mapping found := by rw [Blocks.mapping, hlater.block hlt, Blocks.mapping]
    simp only [Blocks.viewPc, hmap, hlater.time hlt]
  | addInsert isp pub map | banInsert ip map =>
    have hblock : y.block map = x.block map := hlater.block (hmade map (List.mem_singleton_self map))
    simp only [Blocks.viewPc, Blocks.mapping, Blocks.ban, hblock]
  | _ => rfl

/-- malloc leaves what the lists point to -/
theorem viewSrv_malloc {b : Block} (hlists : ∀ a, a ∈ x.mappingList ∨ a ∈ x.bannedList → a < x.heap.length) :
    Blocks.viewSrv { x with heap := x.heap ++ [b] } = x.viewSrv := by
  have hlater : Later x { x with heap := x.heap ++ [b] } := ⟨le_rfl, List.prefix_append _ _, fun _ ha => ha⟩
  have hmappings : x.mappingList.map (Blocks.mapping { x with heap := x.heap ++ [b] }) = x.mappingList.map x.mapping :=
    List.map_congr_left fun a ha => by rw [Blocks.mapping, hlater.block (hlists a (Or.inl ha)), Blocks.mapping]
  have hbans : x.bannedList.map (Blocks.ban { x with heap := x.heap ++ [b] }) = x.bannedList.map x.ban :=
    List.map_congr_left fun a ha => by rw [Blocks.ban, hlater.block (hlists a (Or.inr ha)), Blocks.ban]
  rw [Blocks.viewSrv, Blocks.viewSrv, hmappings, hbans]

/-- **One step of a handler**, through the pointers. -/
theorem blockHandler_view {rand : ℕ} {pc pc' : BlockPc} (hok : HandlerOk x pc)
    (hlists : ∀ a, a ∈ x.mappingList ∨ a ∈ x.bannedList → a < x.heap.length)
    (hs : blockHandler rand x pc = some (pc', y)) :
    (y = x ∧ x.viewPc pc' = x.viewPc pc) ∨
      handlerStep rand x.viewSrv (x.viewPc pc) = some (y.viewPc pc', y.viewSrv) := by
  cases pc with
  | idle => cases hs
  | addSearch isp t0 | addProbe isp t0 pub =>
    right
    have hfind (key : SearchMap) : findElement cmpMaps key (x.mappingList.map x.mapping) =
        (findElement x.cmp key x.mappingList).map x.mapping := findElement_map x.mapping cmpMaps key x.mappingList
    simp only [blockHandler] at hs
    split at hs <;> obtain ⟨rfl, rfl⟩ := Prod.mk.inj (Option.some.inj hs)
    all_goals
      rename_i hfound
      simp only [Blocks.viewPc, handlerStep, Blocks.viewSrv, hfind, hfound, Option.map]
  | addTest isp t0 found =>
    right
    obtain ⟨rfl, rfl⟩ := Prod.mk.inj (Option.some.inj hs)
    have htime : (x.mapping found).time = x.time found := rfl
    by_cases hfresh : x.now - x.time found < expirationTimeSeconds <;>
      simp only [Blocks.viewPc, handlerStep, Blocks.viewSrv, htime, hfresh, if_true, if_false]
  | addCompare isp t0 found timeNow =>
    left
    simp only [blockHandler] at hs
    split_ifs at hs with hfresh <;> obtain ⟨rfl, rfl⟩ := Prod.mk.inj (Option.some.inj hs) <;>
      simp [Blocks.viewPc, hfresh]
  | addCopy isp t0 found timeNow =>
    left
    obtain ⟨rfl, rfl⟩ := Prod.mk.inj (Option.some.inj hs)
    exact ⟨rfl, rfl⟩
  | addRules isp pub calls | banRules ip calls =>
    right
    simp only [blockHandler] at hs
    split at hs <;> rename_i hcall <;> obtain ⟨rfl, rfl⟩ := Prod.mk.inj (Option.some.inj hs)
    · simp only [Blocks.viewPc, handlerStep, Blocks.viewSrv, hcall]
      rfl
    · simp only [Blocks.viewPc, handlerStep, Blocks.viewSrv, hcall]
  | addStamp isp pub =>
    right
    obtain ⟨rfl, rfl⟩ := Prod.mk.inj (Option.some.inj hs)
    have hnew : Blocks.block { x with heap := x.heap ++ [⟨x.now, isp, some pub⟩] } x.heap.length =
        ⟨x.now, isp, some pub⟩ := by simp [Blocks.block]
    rw [viewSrv_malloc hlists]
    simp only [Blocks.viewPc, handlerStep, Blocks.mapping, hnew]
    rfl
  | banStamp ip =>
    right
    obtain ⟨rfl, rfl⟩ := Prod.mk.inj (Option.some.inj hs)
    have hnew : Blocks.block { x with heap := x.heap ++ [⟨x.now, ip, none⟩] } x.heap.length = ⟨x.now, ip, none⟩ := by
      simp [Blocks.block]
    rw [viewSrv_malloc hlists]
    simp only [Blocks.viewPc, handlerStep, Blocks.ban, hnew]
    rfl
  | addInsert isp pub map =>
    right
    obtain ⟨rfl, rfl⟩ := Prod.mk.inj (Option.some.inj hs)
    have hmap : x.mapping map = ⟨x.time map, isp, pub⟩ := by rw [Blocks.mapping, show x.block map = _ from hok]; rfl
    simp only [Blocks.viewPc, handlerStep, hmap, Blocks.viewSrv, List.map_append, List.map_singleton]
    rw [← hmap]
    rfl
  | banInsert ip map =>
    right
    obtain ⟨rfl, rfl⟩ := Prod.mk.inj (Option.some.inj hs)
    have hmap : x.ban map = ⟨x.time map, ip⟩ := by rw [Blocks.ban, show x.block map = _ from hok]; rfl
    simp only [Blocks.viewPc, handlerStep, hmap, Blocks.viewSrv, List.map_append, List.map_singleton]
    rw [← hmap]
    rfl
  | _ =>
    right
    obtain ⟨rfl, rfl⟩ := Prod.mk.inj (Option.some.inj hs)
    rfl

/-- the handler's turn in the view -/
theorem view_setHandler (z : Blocks) (i : ℕ) (pc : BlockPc) :
    (z.setHandler i pc).view = z.view.setHandler i (z.viewPc pc) z.viewSrv := by
  have hhandler : (fun j => z.viewPc (Function.update z.handler i pc j)) =
      Function.update (fun j => z.viewPc (z.handler j)) i (z.viewPc pc) := by
    funext j
    by_cases hj : j = i
    · subst hj
      simp
    · simp [hj]
  have hview : (z.setHandler i pc).view = ⟨z.viewSrv, fun j => z.viewPc (Function.update z.handler i pc j),
      z.mappingCleaner.map z.mapping, z.banCleaner.map z.ban⟩ := rfl
  rw [hview, hhandler]
  rfl

theorem map_cleaner_congr {β : Type} {f g : ℕ → β} {time : ℕ → ℤ} {now : ℤ} {list : List ℕ} {pc : CleanerPc ℕ}
    (h : Sound time now list pc) (hlist : ∀ a ∈ list, f a = g a) (hpopped : ∀ a ∈ pc.popped, f a = g a) :
    pc.map f = pc.map g := by
  cases pc with
  | waiting elm =>
    rw [CleanerPc.map, CleanerPc.map, hlist elm (List.mem_of_head? h)]
  | popping elm =>
    rw [CleanerPc.map, CleanerPc.map, hlist elm (List.mem_of_head? h.1)]
  | acting waited popped calls =>
    obtain ⟨rfl, -⟩ := h
    rw [CleanerPc.map, CleanerPc.map, Option.map_some, Option.map_some, hpopped waited (List.mem_singleton_self waited)]
  | _ => rfl

/-- a handler's step leaves the rest of the view -/
theorem view_handle {z : Blocks} {i rand : ℕ} {pc : BlockPc} (h : BlocksInv start x)
    (hs : blockHandler rand x (x.handler i) = some (pc, z)) :
    (z.setHandler i pc).view = x.view.setHandler i (z.viewPc pc) z.viewSrv := by
  have hstep : blockStep x (.handle i rand) = some (z.setHandler i pc) := by rw [blockStep, hs]; rfl
  have hlater : Later x z := by
    obtain ⟨hnow, hheap, hlisted⟩ := later_step hstep
    exact ⟨hnow, hheap, hlisted⟩
  have hsame := blockHandler_frame hs
  have hblock {k : Place} {a : ℕ} (ha : a ∈ x.holding k) : z.block a = x.block a :=
    hlater.block (h.placed.issued_of_mem ha)
  have hhandlers : (fun j => z.viewPc (x.handler j)) = fun j => x.viewPc (x.handler j) := by
    funext j
    exact viewPc_later h.placed (h.handlers j) (fun a ha => h.placed.issued_of_mem (k := Place.handler j) ha) hlater
  have hmapping : x.mappingCleaner.map z.mapping = x.mappingCleaner.map x.mapping := by
    refine map_cleaner_congr h.mapping (fun a ha => ?_) fun a ha => ?_
    · rw [Blocks.mapping, hblock (k := Place.mappingList) ha, Blocks.mapping]
    · rw [Blocks.mapping, hblock (k := Place.mappingCleaner) ha, Blocks.mapping]
  have hban : x.banCleaner.map z.ban = x.banCleaner.map x.ban := by
    refine map_cleaner_congr h.ban (fun a ha => ?_) fun a ha => ?_
    · rw [Blocks.ban, hblock (k := Place.bannedList) ha, Blocks.ban]
    · rw [Blocks.ban, hblock (k := Place.banCleaner) ha, Blocks.ban]
  rw [view_setHandler, Blocks.view, Blocks.view, hsame.1, hsame.2.1, hsame.2.2, hhandlers, hmapping, hban]
  rfl

/-- **The same step**, through the pointers: unless a handler reads its match. -/
theorem blockStep_view {o : ThreadOp} (h : BlocksInv start x) (hs : blockStep x o = some y) :
    y.view = x.view ∨ threadStep x.view o = some y.view := by
  cases o with
  | wait d =>
    obtain rfl := Option.some.inj hs
    exact Or.inr rfl
  | recvAdd i ip uninit | recvBan i ip =>
    simp only [blockStep] at hs
    split_ifs at hs with hidle
    obtain rfl := Option.some.inj hs
    right
    have hview : x.view.handler i = .idle := congrArg x.viewPc hidle
    rw [threadStep, if_pos hview, view_setHandler]
    rfl
  | handle i rand =>
    obtain ⟨pc, z, hz, rfl⟩ := blockStep_handle hs
    have hlists : ∀ a, a ∈ x.mappingList ∨ a ∈ x.bannedList → a < x.heap.length := by
      intro a ha
      exact ha.elim (h.placed.issued_of_mem (k := Place.mappingList)) (h.placed.issued_of_mem (k := Place.bannedList))
    rw [view_handle h hz]
    rcases blockHandler_view (h.handlers i) hlists hz with ⟨hsame, hpc⟩ | hstep
    · left
      rw [hsame, hpc]
      exact setHandler_eq x.view i
    · right
      have hview : handlerStep rand x.view.srv (x.view.handler i) = some (z.viewPc pc, z.viewSrv) := hstep
      rw [threadStep, hview]
      rfl
  | cleanMapping =>
    right
    simp only [blockStep, Option.map_eq_some_iff] at hs
    obtain ⟨⟨pc, list, fw⟩, hc, rfl⟩ := hs
    have hview : cleanerStep Mapping.time expiredMapCalls x.view.srv.now x.view.srv.mappingList x.view.srv.fw
        x.view.mappingCleaner = some (pc.map x.mapping, list.map x.mapping, fw) :=
      (cleanerStep_map x.mapping Mapping.time expiredMapCalls x.now x.mappingList x.fw x.mappingCleaner).trans
        (congrArg _ hc)
    rw [threadStep, hview]
    rfl
  | cleanBan =>
    right
    simp only [blockStep, Option.map_eq_some_iff] at hs
    obtain ⟨⟨pc, list, fw⟩, hc, rfl⟩ := hs
    have hview : cleanerStep Ban.time expiredBanCalls x.view.srv.now x.view.srv.bannedList x.view.srv.fw
        x.view.banCleaner = some (pc.map x.ban, list.map x.ban, fw) :=
      (cleanerStep_map x.ban Ban.time expiredBanCalls x.now x.bannedList x.fw x.banCleaner).trans (congrArg _ hc)
    rw [threadStep, hview]
    rfl

end Step

/-! ## The account -/

/-- every Mapping has been freed -/
theorem all_gone {x : Blocks} (h : x.Placed) (hquiet : Quiet x.view) (hmappings : x.mappingList = [])
    (hbans : x.bannedList = []) : x.gone.Perm (List.range x.heap.length) := by
  have hhandler : ∀ i, (x.handler i).made = [] := by
    intro i
    have hidle : x.viewPc (x.handler i) = .idle := hquiet.handlers i
    cases hpc : x.handler i <;> rw [hpc] at hidle <;> first | rfl | cases hidle
  have hmapping : x.mappingCleaner.popped = [] := by
    have htop : x.mappingCleaner.map x.mapping = .top := hquiet.mappingCleaner
    cases hpc : x.mappingCleaner <;> rw [hpc] at htop <;> first | rfl | cases htop
  have hban : x.banCleaner.popped = [] := by
    have htop : x.banCleaner.map x.ban = .top := hquiet.banCleaner
    cases hpc : x.banCleaner <;> rw [hpc] at htop <;> first | rfl | cases htop
  refine (List.perm_ext_iff_of_nodup (h.nodup Place.freed) List.nodup_range).2 ?_
  intro a
  rw [List.mem_range, h.issued_iff]
  refine ⟨fun ha => ⟨.freed, ha⟩, ?_⟩
  rintro ⟨k, hk⟩
  cases k with
  | freed => exact hk
  | handler i => simp [Blocks.holding, hhandler i] at hk
  | mappingList => simp [Blocks.holding, hmappings] at hk
  | bannedList => simp [Blocks.holding, hbans] at hk
  | mappingCleaner => simp [Blocks.holding, hmapping] at hk
  | banCleaner => simp [Blocks.holding, hban] at hk

/-- what is freed of a ban does not include its string -/
theorem leaked_ban {now : ℤ} {x : Blocks} (h : BlocksInv now x) {a : ℕ} (hban : (x.block a).publicIP = none) :
    (a, Part.ispPrefix) ∉ x.freed := by
  intro hfreed
  rw [h.freed, List.mem_flatMap] at hfreed
  obtain ⟨b, -, hb⟩ := hfreed
  obtain ⟨part, hpart, heq⟩ := List.mem_map.1 hb
  obtain ⟨rfl, rfl⟩ := Prod.mk.inj heq
  rw [if_pos hban] at hpart
  simp [expiredBanFrees] at hpart

/-- what can be said of the blocks in any state -/
structure Account (now : ℤ) (fw : Firewall) (x : Blocks) : Prop where
  view : Reaches threadStep (startThreads now fw) x.view
  placed : x.Placed
  /-- all blocks of the mappings, and of the bans what handleExpiredBan frees, each once -/
  settled : Quiet x.view → x.mappingList = [] → x.bannedList = [] →
    x.freed.Perm ((List.range x.heap.length).flatMap (frees x))
  /-- a ban's string stays -/
  leaked : ∀ a, (x.block a).publicIP = none → (a, Part.ispPrefix) ∉ x.freed
  /-- `publicIP` of a Mapping that is freed next -/
  mapping : ∀ a ∈ x.mappingCleaner.freeing, (x.block a).publicIP ≠ none
  ban : ∀ a ∈ x.banCleaner.freeing, (x.block a).publicIP = none

-- a lease and a ban, both expired: the string of the ban (1) is left
example : (run blockStep (startBlocks 0 bootServer.fw)
      (.recvAdd 0 clientA [] :: List.replicate 12 (.handle 0 0) ++ .recvBan 0 clientA ::
        List.replicate 6 (.handle 0 0) ++ .wait 7 :: List.replicate 13 .cleanMapping ++
        List.replicate 7 .cleanBan)).map
    (fun x => (x.handler 0, x.mappingList, x.bannedList, x.freed)) =
  some (.idle, [], [], [(0, .ispPrefix), (0, .publicIP), (0, .struct), (1, .publicIP), (1, .struct)]) := rfl

end NetSec.NatServer
