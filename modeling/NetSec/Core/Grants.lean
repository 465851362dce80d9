/-
Grants of resources to holders, for a time: holders and resources of any type, times in ℤ.

A grant runs up to and with the time it expires. Others keep claims: what they believe to have been granted, and until
when. A claim is within a grant that gives the same resource to the same holder for at least as long.

- `Exclusive.later`, `exclusive_append_iff`: no resource is granted to two holders at one time, as time goes on, and
  with one more grant exactly when no other holder has its resource;
- `Covered.mono`, `covered_append`: claims stay covered as grants and claims come in;
- `Exclusive.of_covered`: claims covered by exclusive grants are exclusive.
-/
import Mathlib.Tactic

namespace NetSec.Grants

variable {η ρ : Type*}

structure Grant (η ρ : Type*) where
  holder : η
  resource : ρ
  expires : ℤ
deriving DecidableEq, Repr

def Grant.Live (t : ℤ) (g : Grant η ρ) : Prop := t ≤ g.expires

instance (t : ℤ) (g : Grant η ρ) : Decidable (g.Live t) := by unfold Grant.Live; infer_instance

/-- no resource is granted to two holders at this time -/
def Exclusive (t : ℤ) (gs : List (Grant η ρ)) : Prop :=
  ∀ a ∈ gs, ∀ b ∈ gs, a.resource = b.resource → a.Live t → b.Live t → a.holder = b.holder

/-- the same resource, the same holder, and no longer -/
structure Grant.Within (c g : Grant η ρ) : Prop where
  holder : c.holder = g.holder
  resource : c.resource = g.resource
  expires : c.expires ≤ g.expires

def Covered (cs gs : List (Grant η ρ)) : Prop := ∀ c ∈ cs, ∃ g ∈ gs, c.Within g

theorem Grant.Live.earlier {t t' : ℤ} {g : Grant η ρ} (h : g.Live t') (hle : t ≤ t') : g.Live t := hle.trans h

theorem Grant.Within.live {c g : Grant η ρ} (h : c.Within g) {t : ℤ} (hc : c.Live t) : g.Live t := hc.trans h.expires

theorem Grant.Within.refl (g : Grant η ρ) : g.Within g := ⟨rfl, rfl, le_rfl⟩

theorem exclusive_nil (t : ℤ) : Exclusive t ([] : List (Grant η ρ)) := by
  intro a ha
  cases ha

theorem Exclusive.later {t t' : ℤ} {gs : List (Grant η ρ)} (h : Exclusive t gs) (hle : t ≤ t') : Exclusive t' gs :=
  fun a ha b hb hres hla hlb => h a ha b hb hres (hla.earlier hle) (hlb.earlier hle)

/-- **One more grant.** -/
theorem exclusive_append_iff {t : ℤ} {gs : List (Grant η ρ)} {g : Grant η ρ} (h : Exclusive t gs) :
    Exclusive t (gs ++ [g]) ↔
      (g.Live t → ∀ a ∈ gs, a.resource = g.resource → a.Live t → a.holder = g.holder) := by
  refine ⟨?_, ?_⟩
  · intro hall hlive a ha hres hla
    exact hall a (List.mem_append_left _ ha) g (List.mem_append_right _ (List.mem_singleton_self g)) hres hla hlive
  · intro hnew a ha b hb hres hla hlb
    rcases List.mem_append.1 ha with hold | hone
    · rcases List.mem_append.1 hb with hold' | hone'
      · exact h a hold b hold' hres hla hlb
      · obtain rfl := List.mem_singleton.1 hone'
        exact hnew hlb a hold hres hla
    · obtain rfl := List.mem_singleton.1 hone
      rcases List.mem_append.1 hb with hold' | hone'
      · exact (hnew hla b hold' hres.symm hlb).symm
      · rw [List.mem_singleton.1 hone']

theorem covered_nil (gs : List (Grant η ρ)) : Covered [] gs := by
  intro c hc
  cases hc

theorem Covered.mono {cs gs gs' : List (Grant η ρ)} (h : Covered cs gs) (hle : gs ⊆ gs') : Covered cs gs' := by
  intro c hc
  obtain ⟨g, hg, hin⟩ := h c hc
  exact ⟨g, hle hg, hin⟩

theorem covered_append {cs cs' gs : List (Grant η ρ)} : Covered (cs ++ cs') gs ↔ Covered cs gs ∧ Covered cs' gs := by
  refine ⟨fun h => ⟨fun c hc => h c (List.mem_append_left _ hc), fun c hc => h c (List.mem_append_right _ hc)⟩, ?_⟩
  intro ⟨h, h'⟩ c hc
  rcases List.mem_append.1 hc with hc | hc
  · exact h c hc
  · exact h' c hc

/-- **Covered claims are exclusive.** -/
theorem Exclusive.of_covered {t : ℤ} {cs gs : List (Grant η ρ)} (h : Exclusive t gs) (hc : Covered cs gs) :
    Exclusive t cs := by
  intro a ha b hb hres hla hlb
  obtain ⟨g, hg, hag⟩ := hc a ha
  obtain ⟨g', hg', hbg⟩ := hc b hb
  calc
    a.holder = g.holder := hag.holder
    _ = g'.holder := h g hg g' hg' (hag.resource.symm.trans (hres.trans hbg.resource)) (hag.live hla) (hbg.live hlb)
    _ = b.holder := hbg.holder.symm

end NetSec.Grants
