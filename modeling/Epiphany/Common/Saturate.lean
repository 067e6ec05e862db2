import Epiphany.Common.Loop
/-!
# Saturation — sweeps until one adds nothing

A sweep offers the items of a list to a state, one after the other, and each
either adds to it or is refused. Sweeps follow one another until every item is
refused. Where what an item adds lowers a measure, there is such a sweep
(`saturate_isSome`); the state then refuses every item, and what each addition
keeps holds of it (`saturate_eq_some`).
-/

namespace Epiphany

namespace Saturate

open Loop

variable {σ ι : Type*}

/-- Offer an item; the mark says that one was added. -/
def offer (add : σ → ι → Option σ) (st : σ × Bool) (i : ι) : σ × Bool :=
  match add st.1 i with
  | some s => (s, true)
  | none => st

def sweep (add : σ → ι → Option σ) (items : List ι) (s : σ) : σ × Bool :=
  items.foldl (offer add) (s, false)

/-- A sweep that adds nothing is the last. -/
def turn (add : σ → ι → Option σ) (items : List ι) (s : σ) : Turn σ σ :=
  if (sweep add items s).2 then .again (sweep add items s).1 else .done (sweep add items s).1

/-- Sweeps until one adds nothing, if that many are enough. -/
def saturate (add : σ → ι → Option σ) (items : List ι) (n : Nat) (s : σ) : Option σ :=
  loop (turn add items) n s

variable {add : σ → ι → Option σ} {items : List ι}

theorem offer_of_none {s : σ} {mark : Bool} {i : ι} (h : add s i = none) :
    offer add (s, mark) i = (s, mark) := by
  unfold offer
  rw [h]

theorem offer_of_some {s s' : σ} {mark : Bool} {i : ι} (h : add s i = some s') :
    offer add (s, mark) i = (s', true) := by
  unfold offer
  rw [h]

/-- Once something was added, the mark stays. -/
theorem foldl_offer_mark (items : List ι) (s : σ) : (items.foldl (offer add) (s, true)).2 = true := by
  induction items generalizing s with
  | nil => rfl
  | cons i items ih =>
    rw [List.foldl_cons]
    rcases h : add s i with _ | s'
    · rw [offer_of_none h]
      exact ih s
    · rw [offer_of_some h]
      exact ih s'

/-- A sweep without the mark has refused every item, and changed nothing. -/
theorem sweep_unmarked {s : σ} (h : (sweep add items s).2 = false) :
    (sweep add items s).1 = s ∧ ∀ i ∈ items, add s i = none := by
  unfold sweep at h ⊢
  induction items with
  | nil => exact ⟨rfl, fun i hi => by cases hi⟩
  | cons i items ih =>
    rw [List.foldl_cons] at h ⊢
    rcases hi : add s i with _ | s'
    · rw [offer_of_none hi] at h ⊢
      obtain ⟨hs, hall⟩ := ih h
      refine ⟨hs, fun j hj => ?_⟩
      rcases List.mem_cons.1 hj with rfl | hj
      · exact hi
      · exact hall j hj
    · rw [offer_of_some hi, foldl_offer_mark] at h
      cases h

section Invariant

variable {I : σ → Prop} (hadd : ∀ s i s', i ∈ items → I s → add s i = some s' → I s')

include hadd

/-- What every addition keeps, a sweep keeps. -/
theorem sweep_invariant {s : σ} (hs : I s) : I (sweep add items s).1 := by
  unfold sweep
  generalize false = mark
  induction items generalizing s mark with
  | nil => exact hs
  | cons i items ih =>
    have hrest := fun s j s' (hj : j ∈ items) => hadd s j s' (List.mem_cons_of_mem _ hj)
    rw [List.foldl_cons]
    rcases hi : add s i with _ | s'
    · rw [offer_of_none hi]
      exact ih hrest hs mark
    · rw [offer_of_some hi]
      exact ih hrest (hadd s i s' List.mem_cons_self hs hi) true

/-- A sweep with the mark has lowered what every addition lowers. -/
theorem sweep_lt {μ : σ → Nat} (hμ : ∀ s i s', i ∈ items → I s → add s i = some s' → μ s' < μ s)
    {s : σ} (hs : I s) (h : (sweep add items s).2 = true) : μ (sweep add items s).1 < μ s := by
  have hfold : ∀ (l : List ι), (∀ i ∈ l, i ∈ items) → ∀ (s : σ) (mark : Bool), I s →
      μ (l.foldl (offer add) (s, mark)).1 ≤ μ s ∧ ((l.foldl (offer add) (s, mark)).2 = true →
        mark = true ∨ μ (l.foldl (offer add) (s, mark)).1 < μ s) := by
    intro l
    induction l with
    | nil => exact fun _ s mark _ => ⟨le_rfl, .inl⟩
    | cons i l ih =>
      intro hl s mark hs
      have hrest := ih fun j hj => hl j (List.mem_cons_of_mem _ hj)
      have hi := hl i List.mem_cons_self
      rw [List.foldl_cons]
      rcases hadded : add s i with _ | s'
      · rw [offer_of_none hadded]
        exact hrest s mark hs
      · rw [offer_of_some hadded]
        have hlt := hμ s i s' hi hs hadded
        have hle := (hrest s' true (hadd s i s' hi hs hadded)).1
        exact ⟨by omega, fun _ => .inr (by omega)⟩
  exact ((hfold items (fun _ hi => hi) s false hs).2 h).resolve_left Bool.false_ne_true

/-- As many sweeps as the measure says are enough. -/
theorem saturate_isSome {μ : σ → Nat}
    (hμ : ∀ s i s', i ∈ items → I s → add s i = some s' → μ s' < μ s) {n : Nat} {s : σ} (hs : I s)
    (hn : μ s < n) : (saturate add items n s).isSome := by
  refine loop_isSome_of_invariant I μ (fun s s' hs h => ?_) n s hs hn
  unfold turn at h
  split_ifs at h with hmark
  obtain rfl := Turn.again.inj h
  exact ⟨sweep_invariant hadd hs, sweep_lt hadd hμ hs hmark⟩

/-- **Saturation**: the state refuses every item, and what each addition keeps
holds of it. -/
theorem saturate_eq_some {n : Nat} {s s' : σ} (h : saturate add items n s = some s') (hs : I s) :
    I s' ∧ ∀ i ∈ items, add s' i = none := by
  obtain ⟨last, hreaches, hlast⟩ := exists_of_loop h
  have hI : I last := hreaches.invariant hs fun s s' hs h => by
    unfold turn at h
    split_ifs at h
    obtain rfl := Turn.again.inj h
    exact sweep_invariant hadd hs
  unfold turn at hlast
  split_ifs at hlast with hmark
  obtain ⟨hsame, hall⟩ := sweep_unmarked (Bool.eq_false_iff.2 hmark)
  rw [hsame] at hlast
  obtain rfl := Turn.done.inj hlast
  exact ⟨hI, hall⟩

end Invariant

end Saturate

end Epiphany
