import Epiphany.Common.BitFields
import Epiphany.Core.Wellformed
/-!
# Cell stores — packed keys, and the map they stand for

A cube keys its cells by packed coordinates when every dimension's bits fit
in 64, and by the coordinates themselves otherwise. Over coordinates within
the dimensions packing is injective, so a store is a finite map from
coordinates in either form: `get_put`, `get_clear` and `mem_entries` say
so, and `get_rebuild` says what rewriting every key does.
-/

namespace Epiphany

/-- A cube coordinate: one element index per dimension. -/
abbrev Coord := List Nat

/-! ## Layout -/

/-- Bits for the indices below `len`, at least one. -/
def bitsFor (len : Nat) : Nat := if len ≤ 1 then 1 else Nat.log2 (len - 1) + 1

/-- The bit packing of the coordinates of a list of dimensions. -/
structure Layout where
  offsets : List Nat
  masks : List Nat
  narrow : Bool
deriving DecidableEq

namespace Layout

def new (dimensions : List Dimension) : Layout :=
  let widths := dimensions.map fun d => bitsFor d.len
  { offsets := BitFields.offsets 0 widths
    masks := widths.map fun w => 2 ^ w - 1
    narrow := widths.sum ≤ 64 }

def pack (l : Layout) (coord : Coord) : Nat := BitFields.pack l.offsets coord

def component (l : Layout) (key d : Nat) : Nat :=
  BitFields.field key (l.offsets.getD d 0) (l.masks.getD d 0)

def unpack (l : Layout) (key rank : Nat) : Coord := (List.range rank).map (l.component key)

end Layout

/-- Every index lies within its dimension. -/
def InRange (dimensions : List Dimension) (coord : Coord) : Prop :=
  List.Forall₂ (fun i (d : Dimension) => i < d.elements.length) coord dimensions

theorem InRange.length_eq {dims : List Dimension} {c : Coord} (h : InRange dims c) :
    c.length = dims.length := List.Forall₂.length_eq h

theorem lt_two_pow_bitsFor {i len : Nat} (h : i < len) : i < 2 ^ bitsFor len := by
  rw [bitsFor]
  split_ifs with hlen
  · omega
  · exact Nat.lt_of_le_of_lt (by omega) Nat.lt_log2_self

theorem InRange.fields {dims : List Dimension} {c : Coord} (h : InRange dims c) :
    List.Forall₂ (fun v w => v < 2 ^ w) c (dims.map fun d => bitsFor d.len) := by
  rw [List.forall₂_map_right_iff]
  exact h.imp fun _ _ hlt => lt_two_pow_bitsFor hlt

/-- **A coordinate within the dimensions is read back from its key.** -/
theorem Layout.unpack_pack {dims : List Dimension} {c : Coord} (h : InRange dims c) :
    (Layout.new dims).unpack ((Layout.new dims).pack c) dims.length = c := by
  refine List.ext_getElem? fun d => ?_
  rw [unpack, List.getElem?_map]
  by_cases hd : d < dims.length
  · have hc : d < c.length := h.length_eq ▸ hd
    rw [List.getElem?_range hd, List.getElem?_eq_getElem hc, Option.map_some]
    have hw : (dims.map fun d => bitsFor d.len)[d]? = some (bitsFor dims[d].len) := by
      simp [hd]
    have hlen : d < (BitFields.offsets 0 (dims.map fun d => bitsFor d.len)).length := by
      rw [BitFields.length_offsets, List.length_map]
      exact hd
    have := BitFields.field_pack h.fields (List.getElem?_eq_getElem hc) hw
      (List.getElem?_eq_getElem hlen)
    simp only [component, pack, Layout.new, List.getD, List.getElem?_map, hw,
      List.getElem?_eq_getElem hlen, Option.map_some, Option.getD_some]
    exact congrArg some this
  · rw [List.getElem?_eq_none (by simpa using hd),
      List.getElem?_eq_none (by rw [h.length_eq]; exact Nat.not_lt.1 hd)]
    rfl

theorem Layout.pack_inj {dims : List Dimension} {c c' : Coord} (h : InRange dims c)
    (h' : InRange dims c') (heq : (Layout.new dims).pack c = (Layout.new dims).pack c') :
    c = c' := by
  rw [← unpack_pack h, heq, unpack_pack h']

/-! ## Stores -/

/-- The sparse cell store, by packed key or by coordinate. -/
inductive CellStore (V : Type) where
  | narrow (m : FinMap Nat V)
  | wide (m : FinMap Coord V)

namespace CellStore

variable {V : Type}

def new (isNarrow : Bool) : CellStore V := if isNarrow then .narrow ∅ else .wide ∅

def get (s : CellStore V) (l : Layout) (coord : Coord) : Option V :=
  match s with
  | narrow m => m[l.pack coord]?
  | wide m => m[coord]?

def put (s : CellStore V) (l : Layout) (coord : Coord) (value : V) : CellStore V :=
  match s with
  | narrow m => narrow (m.insert (l.pack coord) value)
  | wide m => wide (m.insert coord value)

def clear (s : CellStore V) (l : Layout) (coord : Coord) : CellStore V :=
  match s with
  | narrow m => narrow (m.erase (l.pack coord))
  | wide m => wide (m.erase coord)

/-- The populated cells, in key order. -/
def entries (s : CellStore V) (l : Layout) (rank : Nat) : List (Coord × V) :=
  match s with
  | narrow m => m.toList.map fun e => (l.unpack e.1 rank, e.2)
  | wide m => m.toList

/-- Put every entry of a list, one after the other. -/
def putAll (s : CellStore V) (l : Layout) (cells : List (Coord × V)) : CellStore V :=
  cells.foldl (fun s e => s.put l e.1 e.2) s

/-- Every cell, its coordinate through `transform` (`none` drops it), in a
fresh store under a new layout. -/
def rebuild (s : CellStore V) (l : Layout) (rank : Nat) (newLayout : Layout)
    (transform : Coord → Option Coord) : CellStore V :=
  (CellStore.new newLayout.narrow).putAll newLayout
    ((s.entries l rank).filterMap fun e => (transform e.1).map fun c => (c, e.2))

def isNarrow : CellStore V → Bool
  | narrow _ => true
  | wide _ => false

/-- The keys of the store are those of coordinates within the dimensions,
in the form the layout asks for. -/
structure Holds (s : CellStore V) (dims : List Dimension) : Prop where
  form : s.isNarrow = (Layout.new dims).narrow
  keys : match s with
    | narrow m => ∀ k v, m[k]? = some v → ∃ c, InRange dims c ∧ (Layout.new dims).pack c = k
    | wide m => ∀ c v, m[c]? = some v → InRange dims c

variable {s : CellStore V} {dims : List Dimension}

theorem holds_new (dims : List Dimension) : (new (Layout.new dims).narrow : CellStore V).Holds dims := by
  rcases h : (Layout.new dims).narrow with _ | _
  · exact ⟨by simp [new, isNarrow, h], by simp [new]⟩
  · exact ⟨by simp [new, isNarrow, h], by simp [new]⟩

@[simp] theorem get_new (b : Bool) (l : Layout) (c : Coord) : (new b : CellStore V).get l c = none := by
  cases b <;> simp [new, get]

/-- Reading after a put, at coordinates within the dimensions. -/
theorem get_put {c a : Coord} (hc : InRange dims c) (ha : InRange dims a) (v : V) :
    (s.put (Layout.new dims) c v).get (Layout.new dims) a =
      if c = a then some v else s.get (Layout.new dims) a := by
  rcases s with m | m
  · have hiff : (Layout.new dims).pack c = (Layout.new dims).pack a ↔ c = a :=
      ⟨Layout.pack_inj hc ha, fun h => h ▸ rfl⟩
    simp only [put, get, FinMap.get_insert, hiff]
  · simp only [put, get, FinMap.get_insert]

/-- Reading after a clear, at coordinates within the dimensions. -/
theorem get_clear {c a : Coord} (hc : InRange dims c) (ha : InRange dims a) :
    (s.clear (Layout.new dims) c).get (Layout.new dims) a =
      if c = a then none else s.get (Layout.new dims) a := by
  rcases s with m | m
  · have hiff : (Layout.new dims).pack c = (Layout.new dims).pack a ↔ c = a :=
      ⟨Layout.pack_inj hc ha, fun h => h ▸ rfl⟩
    simp only [clear, get, FinMap.get_erase, hiff]
  · simp only [clear, get, FinMap.get_erase]

theorem Holds.put (h : s.Holds dims) {c : Coord} (hc : InRange dims c) (v : V) :
    (s.put (Layout.new dims) c v).Holds dims := by
  refine ⟨by rcases s <;> exact h.form, ?_⟩
  rcases s with m | m
  · intro k w hk
    simp only [FinMap.get_insert] at hk
    split_ifs at hk with heq
    · exact ⟨c, hc, heq⟩
    · exact h.keys k w hk
  · intro a w ha
    simp only [FinMap.get_insert] at ha
    split_ifs at ha with heq
    · exact heq ▸ hc
    · exact h.keys a w ha

theorem Holds.clear (h : s.Holds dims) (c : Coord) :
    (s.clear (Layout.new dims) c).Holds dims := by
  refine ⟨by rcases s <;> exact h.form, ?_⟩
  rcases s with m | m
  · intro k w hk
    simp only [FinMap.get_erase] at hk
    split_ifs at hk
    exact h.keys k w hk
  · intro a w ha
    simp only [FinMap.get_erase] at ha
    split_ifs at ha
    exact h.keys a w ha

/-- **The entries of a store** are the cells within the dimensions. -/
theorem mem_entries (h : s.Holds dims) {c : Coord} {v : V} :
    (c, v) ∈ s.entries (Layout.new dims) dims.length ↔
      InRange dims c ∧ s.get (Layout.new dims) c = some v := by
  rcases s with m | m
  · simp only [entries, List.mem_map, Prod.mk.injEq, Prod.exists, get]
    constructor
    · rintro ⟨k, w, hk, rfl, rfl⟩
      rw [FinMap.mem_toList] at hk
      obtain ⟨a, ha, rfl⟩ := h.keys k w hk
      rw [Layout.unpack_pack ha]
      exact ⟨ha, hk⟩
    · rintro ⟨hc, hv⟩
      exact ⟨_, v, FinMap.mem_toList.2 hv, Layout.unpack_pack hc, rfl⟩
  · simp only [entries, FinMap.mem_toList, get]
    exact ⟨fun hv => ⟨h.keys c v hv, hv⟩, fun hv => hv.2⟩

theorem nodup_keys_entries (h : s.Holds dims) :
    ((s.entries (Layout.new dims) dims.length).map Prod.fst).Nodup := by
  rcases s with m | m
  · rw [entries, List.map_map]
    refine List.Nodup.map_on ?_ (FinMap.nodup_toList m)
    rintro ⟨k, v⟩ hk ⟨k', v'⟩ hk' heq
    rw [FinMap.mem_toList] at hk hk'
    obtain ⟨a, ha, rfl⟩ := h.keys k v hk
    obtain ⟨b, hb, rfl⟩ := h.keys k' v' hk'
    simp only [Function.comp_apply, Layout.unpack_pack ha, Layout.unpack_pack hb] at heq
    subst heq
    exact Prod.ext rfl (Option.some.inj (hk.symm.trans hk'))
  · exact FinMap.nodup_keys m

/-- Putting entries without conflicts: each reads back, and the rest is as
it was. -/
theorem get_putAll {cells : List (Coord × V)} (hcells : FinMap.Functional cells)
    (hin : ∀ e ∈ cells, InRange dims e.1) (h : s.Holds dims) :
    (s.putAll (Layout.new dims) cells).Holds dims ∧ ∀ c v, InRange dims c →
      ((s.putAll (Layout.new dims) cells).get (Layout.new dims) c = some v ↔
        (c, v) ∈ cells ∨ (c ∉ cells.map Prod.fst ∧ s.get (Layout.new dims) c = some v)) := by
  induction cells generalizing s with
  | nil => exact ⟨h, fun c v _ => by simp [putAll]⟩
  | cons e cells ih =>
    have he := hin e List.mem_cons_self
    obtain ⟨hh, hget⟩ := ih
      (fun k v w hv hw => hcells k v w (List.mem_cons_of_mem _ hv) (List.mem_cons_of_mem _ hw))
      (fun x hx => hin x (List.mem_cons_of_mem _ hx)) (h.put he e.2)
    refine ⟨hh, fun c v hc => (hget c v hc).trans ?_⟩
    rw [get_put he hc]
    by_cases hec : e.1 = c
    · subst hec
      rw [if_pos rfl, Option.some.injEq]
      constructor
      · rintro (h' | ⟨-, rfl⟩)
        · exact Or.inl (List.mem_cons_of_mem _ h')
        · exact Or.inl List.mem_cons_self
      · rintro (h' | ⟨h', -⟩)
        · have hv : v = e.2 := hcells e.1 v e.2 h' List.mem_cons_self
          by_cases hmem : e.1 ∈ cells.map Prod.fst
          · obtain ⟨⟨k, w⟩, hw, hk⟩ := List.mem_map.1 hmem
            have hk' : k = e.1 := hk
            subst hk'
            have : v = w := hcells _ v w h' (List.mem_cons_of_mem _ hw)
            exact Or.inl (this ▸ hw)
          · exact Or.inr ⟨hmem, hv.symm⟩
        · exact absurd (List.mem_map_of_mem List.mem_cons_self) h'
    · have hne : (c, v) ≠ e := fun h' => hec (congrArg Prod.fst h').symm
      simp only [if_neg hec, List.mem_cons, hne, false_or, List.map_cons, Ne.symm hec]

/-- `s'`, over `dims'`, holds the cells of `s` that `move` keeps, each at the
image of where it was, and nothing else. -/
structure Image (s s' : CellStore V) (dims dims' : List Dimension)
    (move : Coord → Option Coord) : Prop where
  holds : s'.Holds dims'
  get : ∀ c' v, InRange dims' c' →
    (s'.get (Layout.new dims') c' = some v ↔
      ∃ c, InRange dims c ∧ s.get (Layout.new dims) c = some v ∧ move c = some c')

/-- **Rebuilding a store** under new dimensions, by a move that is injective
on the coordinates it keeps. -/
theorem image_rebuild {dims' : List Dimension} {move : Coord → Option Coord} (h : s.Holds dims)
    (hin : ∀ c c' v, InRange dims c → s.get (Layout.new dims) c = some v →
      move c = some c' → InRange dims' c')
    (hinj : ∀ a b c, InRange dims a → InRange dims b → move a = some c → move b = some c →
      a = b) :
    Image s (s.rebuild (Layout.new dims) dims.length (Layout.new dims') move) dims dims' move := by
  have hmem : ∀ c' v, (c', v) ∈ ((s.entries (Layout.new dims) dims.length).filterMap
      fun e => (move e.1).map fun c => (c, e.2)) ↔
      ∃ c, InRange dims c ∧ s.get (Layout.new dims) c = some v ∧ move c = some c' := by
    intro c' v
    simp only [List.mem_filterMap, Option.map_eq_some_iff, Prod.mk.injEq, Prod.exists,
      mem_entries h]
    constructor
    · rintro ⟨c, w, ⟨hc, hv⟩, a, ha, rfl, rfl⟩
      exact ⟨c, hc, hv, ha⟩
    · rintro ⟨c, hc, hv, ha⟩
      exact ⟨c, v, ⟨hc, hv⟩, c', ha, rfl, rfl⟩
  have hfun : FinMap.Functional ((s.entries (Layout.new dims) dims.length).filterMap
      fun e => (move e.1).map fun c => (c, e.2)) := by
    intro c' v w hv hw
    obtain ⟨a, ha, hav, hac⟩ := (hmem c' v).1 hv
    obtain ⟨b, hb, hbw, hbc⟩ := (hmem c' w).1 hw
    have := hinj a b c' ha hb hac hbc
    subst this
    exact Option.some.inj (hav.symm.trans hbw)
  have hout : ∀ e ∈ (s.entries (Layout.new dims) dims.length).filterMap
      (fun e => (move e.1).map fun c => (c, e.2)), InRange dims' e.1 := by
    intro e he
    obtain ⟨c, hc, hv, ht⟩ := (hmem e.1 e.2).1 he
    exact hin c e.1 e.2 hc hv ht
  obtain ⟨hh, hget⟩ := get_putAll hfun hout (holds_new dims')
  refine ⟨hh, fun c' v hc' => (hget c' v hc').trans ?_⟩
  rw [hmem, get_new]
  simp

/-- A store left alone when the layout did not change and every coordinate
stayed within the dimensions. -/
theorem image_same {dims' : List Dimension} (h : s.Holds dims)
    (hlayout : Layout.new dims' = Layout.new dims)
    (hin : ∀ c, InRange dims c → InRange dims' c) : Image s s dims dims' some := by
  refine ⟨⟨by rw [hlayout]; exact h.form, ?_⟩, fun c' v hc' => ?_⟩
  · rcases s with m | m
    · intro k v hk
      obtain ⟨c, hc, hck⟩ := h.keys k v hk
      exact ⟨c, hin c hc, by rw [hlayout]; exact hck⟩
    · exact fun c v hc => hin c (h.keys c v hc)
  · rw [hlayout]
    constructor
    · intro hv
      refine ⟨c', ?_, hv, rfl⟩
      rcases s with m | m
      · obtain ⟨c, hc, hck⟩ := h.keys _ v hv
        rw [← hlayout] at hck
        rwa [← Layout.pack_inj (hin c hc) hc' hck]
      · exact h.keys c' v hv
    · rintro ⟨c, -, hv, hc⟩
      cases hc
      exact hv

end CellStore

end Epiphany
