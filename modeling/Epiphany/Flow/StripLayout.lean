import Epiphany.Flow.Strip
/-!
# Type stripping — the scan ends, and the layout stays

Every loop of the stripper lowers what is left of the source. Every range that
is blanked lies in the source, but for one: the type of an annotation or of a
cast that ends in a string which the source does not close. The scan is total
and keeps the layout exactly where it comes to no such type.
-/

namespace Epiphany

namespace Strip

open Digits Loop

variable {src : List Char}

/-! ## Where the scans of a piece end -/

theorem le_skipWhile {p : Char → Bool} {k : Nat} : k ≤ skipWhile p src k := by
  unfold skipWhile
  omega

theorem skipWhile_le {p : Char → Bool} {k : Nat} (hk : k ≤ src.length) :
    skipWhile p src k ≤ src.length := by
  unfold skipWhile
  have h : ((src.drop k).takeWhile p).length ≤ (src.drop k).length :=
    (List.takeWhile_prefix p).length_le
  rw [List.length_drop] at h
  omega

theorem drop_eq_cons {k : Nat} {c : Char} (h : src[k]? = some c) :
    src.drop k = c :: src.drop (k + 1) := by
  obtain ⟨hk, rfl⟩ := List.getElem?_eq_some_iff.1 h
  exact List.drop_eq_getElem_cons hk

theorem lt_length {k : Nat} {c : Char} (h : src[k]? = some c) : k < src.length :=
  (List.getElem?_eq_some_iff.1 h).1

theorem lt_skipWhile {p : Char → Bool} {k : Nat} {c : Char} (h : src[k]? = some c)
    (hp : p c = true) : k < skipWhile p src k := by
  unfold skipWhile
  rw [drop_eq_cons h, List.takeWhile_cons_of_pos hp, List.length_cons]
  omega

theorem skipWhile_of_length_le {p : Char → Bool} {k : Nat} (hk : src.length ≤ k) :
    skipWhile p src k = k := by
  unfold skipWhile
  rw [List.drop_eq_nil_of_le hk]
  rfl

theorem le_skipSpace {k : Nat} : k ≤ skipSpace src k := le_skipWhile

theorem skipSpace_le {k : Nat} (hk : k ≤ src.length) : skipSpace src k ≤ src.length :=
  skipWhile_le hk

theorem le_wordEnd {k : Nat} : k ≤ wordEnd src k := le_skipWhile

theorem wordEnd_le {k : Nat} (hk : k ≤ src.length) : wordEnd src k ≤ src.length :=
  skipWhile_le hk

theorem isWordChar_of_isWordStart {c : Char} (h : isWordStart c = true) :
    isWordChar c = true := by
  unfold isWordStart at h
  unfold isWordChar Char.isAlphanum
  simp only [Bool.or_eq_true, decide_eq_true_eq] at h ⊢
  tauto

theorem lt_wordEnd {k : Nat} {c : Char} (h : src[k]? = some c) (hc : isWordStart c = true) :
    k < wordEnd src k := lt_skipWhile h (isWordChar_of_isWordStart hc)

theorem lineCommentLength_le (l : List Char) : lineCommentLength l ≤ l.length :=
  (List.takeWhile_prefix _).length_le

theorem lineCommentLength_pos {k : Nat} (h : src[k]? = some '/') :
    0 < lineCommentLength (src.drop k) := by
  unfold lineCommentLength
  rw [drop_eq_cons h, List.takeWhile_cons_of_pos (by decide), List.length_cons]
  omega

theorem blockCommentLength_le (l : List Char) : blockCommentLength l ≤ l.length := by
  fun_induction blockCommentLength l <;> simp only [List.length_cons, List.length_nil] <;> omega

theorem interfaceLength_le (l : List Char) :
    ∀ depth, interfaceLength depth l ≤ l.length := by
  intro depth
  fun_induction interfaceLength depth l <;> simp only [List.length_cons, List.length_nil] <;>
    omega

theorem aliasLength_le (l : List Char) : ∀ depth, aliasLength depth l ≤ l.length := by
  intro depth
  fun_induction aliasLength depth l <;> simp only [List.length_cons, List.length_nil] <;> omega

theorem angleLength_le {l : List Char} :
    ∀ {depth : Int32} {n : Nat}, angleLength depth l = some n → 0 < n ∧ n ≤ l.length := by
  intro depth
  fun_induction angleLength depth l with
  | case1 depth =>
    intro n h
    simp at h
  | case2 depth rest ih =>
    intro n h
    obtain ⟨m, hm, rfl⟩ := Option.map_eq_some_iff.1 h
    have := ih hm
    simp only [List.length_cons]
    omega
  | case3 depth rest hd =>
    intro n h
    obtain rfl : 1 = n := by simpa using h
    simp only [List.length_cons]
    omega
  | case4 depth rest hd ih =>
    intro n h
    obtain ⟨m, hm, rfl⟩ := Option.map_eq_some_iff.1 h
    have := ih hm
    simp only [List.length_cons]
    omega
  | case5 depth c rest hc hc' h =>
    intro n h
    simp at h
  | case6 depth c rest hc hc' hn ih =>
    intro n h
    obtain ⟨m, hm, rfl⟩ := Option.map_eq_some_iff.1 h
    have := ih hm
    simp only [List.length_cons]
    omega

theorem scanAngleBalancedFrom_bounds {k stop : Nat}
    (h : scanAngleBalancedFrom src k = some stop) : k < stop ∧ stop ≤ src.length := by
  unfold scanAngleBalancedFrom at h
  obtain ⟨n, hn, rfl⟩ := Option.map_eq_some_iff.1 h
  have hb := angleLength_le hn
  rw [List.length_drop] at hb
  omega

/-! ## Every loop ends -/

/-- A turn past a comment goes on behind it, in the source. -/
theorem triviaTurn_again {k k' : Nat} (h : triviaTurn src k = .again k') :
    k < k' ∧ k' ≤ src.length := by
  unfold triviaTurn at h
  dsimp only at h
  have hle : k ≤ skipSpace src k := le_skipSpace
  split_ifs at h with hline hblock
  · obtain rfl : _ = k' := by simpa using h
    have hpos := lineCommentLength_pos hline.1
    have hlen := lineCommentLength_le (src.drop (skipSpace src k))
    have hlt := lt_length hline.1
    rw [List.length_drop] at hlen
    omega
  · obtain rfl : _ = k' := by simpa using h
    have hlen := blockCommentLength_le (src.drop (skipSpace src k + 2))
    have hlt := lt_length hblock.2
    rw [List.length_drop] at hlen
    omega

theorem triviaTurn_done {k stop : Nat} (h : triviaTurn src k = .done stop) :
    stop = skipSpace src k := by
  unfold triviaTurn at h
  dsimp only at h
  split_ifs at h
  simpa using h.symm

theorem trivia_ends (src : List Char) (k : Nat) :
    (loop (triviaTurn src) (src.length + 1) k).isSome := by
  refine loop_isSome (fun k => src.length - k) ?_ _ k (by omega)
  intro s s' h
  have := triviaTurn_again h
  omega

theorem le_skipTrivia {k : Nat} : k ≤ skipTrivia src k := by
  obtain ⟨stop, hs⟩ := Option.isSome_iff_exists.1 (trivia_ends src k)
  obtain ⟨last, hr, hl⟩ := exists_of_loop hs
  have hk : k ≤ last := hr.invariant (I := (k ≤ ·)) le_rfl fun s s' hs h => by
    have := triviaTurn_again h
    omega
  unfold skipTrivia
  rw [hs, Option.getD_some, triviaTurn_done hl]
  exact hk.trans le_skipSpace

theorem skipTrivia_of_length_le {k : Nat} (hk : src.length ≤ k) : skipTrivia src k = k := by
  have hstay : skipSpace src k = k := skipWhile_of_length_le hk
  have hnone : src[k]? = none := List.getElem?_eq_none hk
  have hdone : triviaTurn src k = .done k := by
    unfold triviaTurn
    simp [hstay, hnone]
  unfold skipTrivia
  rw [loop_done hdone, Option.getD_some]

/-- A turn in a template goes on further behind. -/
theorem templateTurn_again {stack stack' : List Nat} {k k' : Nat}
    (h : templateTurn src (stack, k) = .again (stack', k')) : k < k' ∧ k < src.length := by
  rcases stack with _ | ⟨depth, outer⟩
  · simp [templateTurn] at h
  · rcases hc : src[k]? with _ | c
    · simp [templateTurn, hc] at h
    · have hlt := lt_length hc
      simp only [templateTurn, hc] at h
      split_ifs at h with _ _ _ _ _ _ _ hline _ <;>
        simp only [Turn.again.injEq, Prod.mk.injEq] at h
      any_goals omega
      have := lineCommentLength_pos (hline.1 ▸ hc)
      omega

theorem template_ends (src : List Char) (k : Nat) :
    (loop (templateTurn src) (src.length + 1) ([0], k)).isSome := by
  refine loop_isSome (fun s => src.length - s.2) ?_ _ _ (by dsimp only; omega)
  rintro ⟨stack, k⟩ ⟨stack', k'⟩ h
  have := templateTurn_again h
  dsimp only
  omega

theorem templateTurn_done {stack : List Nat} {k stop : Nat}
    (h : templateTurn src (stack, k) = .done stop) : stop = k := by
  rcases stack with _ | ⟨depth, outer⟩
  · simpa [templateTurn] using h.symm
  · rcases hc : src[k]? with _ | c
    · simpa [templateTurn, hc] using h.symm
    · simp only [templateTurn, hc] at h
      split_ifs at h

theorem le_templateEnd {k : Nat} : k ≤ templateEnd src k := by
  obtain ⟨stop, hs⟩ := Option.isSome_iff_exists.1 (template_ends src k)
  obtain ⟨⟨stack, last⟩, hr, hl⟩ := exists_of_loop hs
  have hk : k ≤ last := hr.invariant (I := fun s => k ≤ s.2) le_rfl fun s s' hs h => by
    have := templateTurn_again h
    omega
  unfold templateEnd
  rw [hs, Option.getD_some, templateTurn_done hl]
  exact hk

/-- A turn at a dot goes on behind it, in the source. -/
theorem nameTurn_again {k k' : Nat} (h : nameTurn src k = .again k') :
    k < k' ∧ k' ≤ src.length := by
  unfold nameTurn at h
  dsimp only at h
  have hword : k ≤ wordEnd src k := le_wordEnd
  have hdot : wordEnd src k ≤ skipSpace src (wordEnd src k) := le_skipSpace
  split_ifs at h with hstop hc
  obtain rfl : _ = k' := by simpa using h
  have hlt := lt_length hc
  have hle : skipSpace src (wordEnd src k) + 1 ≤
      skipSpace src (skipSpace src (wordEnd src k) + 1) := le_skipSpace
  have hend : skipSpace src (skipSpace src (wordEnd src k) + 1) ≤ src.length :=
    skipSpace_le (by omega)
  omega

theorem nameTurn_done {k stop : Nat} (h : nameTurn src k = .done (some stop)) :
    k < stop ∧ (k ≤ src.length → stop ≤ src.length) := by
  unfold nameTurn at h
  dsimp only at h
  have hword : k ≤ wordEnd src k := le_wordEnd
  split_ifs at h with hstop hc
  · simp at h
  · obtain rfl : wordEnd src k = stop := by simpa using h
    exact ⟨by omega, wordEnd_le⟩

theorem name_ends (src : List Char) (k : Nat) :
    (loop (nameTurn src) (src.length + 1) k).isSome := by
  refine loop_isSome (fun k => src.length - k) ?_ _ k (by omega)
  intro s s' h
  have := nameTurn_again h
  omega

theorem qualifiedEnd_bounds {k stop : Nat} (hk : k ≤ src.length)
    (h : qualifiedEnd src k = some stop) : k < stop ∧ stop ≤ src.length := by
  obtain ⟨r, hs⟩ := Option.isSome_iff_exists.1 (name_ends src k)
  unfold qualifiedEnd at h
  rw [hs, Option.getD_some] at h
  obtain ⟨last, hr, hl⟩ := exists_of_loop hs
  have hlast : k ≤ last ∧ last ≤ src.length :=
    hr.invariant (I := fun i => k ≤ i ∧ i ≤ src.length) ⟨le_rfl, hk⟩ fun s s' hs h => by
      have := nameTurn_again h
      omega
  subst h
  have hd := nameTurn_done hl
  have := hd.2 hlast.2
  omega

/-- A turn past an array suffix goes on behind it, in the source. -/
theorem suffixTurn_again {k k' : Nat} (h : suffixTurn src k = .again k') :
    k < k' ∧ k' ≤ src.length := by
  unfold suffixTurn at h
  dsimp only at h
  have hle : k ≤ skipSpace src k := le_skipSpace
  split_ifs at h with hc
  obtain rfl : _ = k' := by simpa using h
  have := lt_length hc.2
  omega

theorem suffixTurn_done {k stop : Nat} (h : suffixTurn src k = .done stop) : stop = k := by
  unfold suffixTurn at h
  dsimp only at h
  split_ifs at h
  simpa using h.symm

theorem suffixes_end (src : List Char) (k : Nat) :
    (loop (suffixTurn src) (src.length + 1) k).isSome := by
  refine loop_isSome (fun k => src.length - k) ?_ _ k (by omega)
  intro s s' h
  have := suffixTurn_again h
  omega

theorem arraySuffixes_bounds (src : List Char) (k : Nat) :
    k ≤ arraySuffixes src k ∧ (k ≤ src.length → arraySuffixes src k ≤ src.length) := by
  obtain ⟨stop, hs⟩ := Option.isSome_iff_exists.1 (suffixes_end src k)
  obtain ⟨last, hr, hl⟩ := exists_of_loop hs
  have hlast : k ≤ last ∧ (k ≤ src.length → last ≤ src.length) :=
    hr.invariant (I := fun i => k ≤ i ∧ (k ≤ src.length → i ≤ src.length)) ⟨le_rfl, id⟩
      fun s s' hs h => by
        have := suffixTurn_again h
        exact ⟨by omega, fun _ => this.2⟩
  unfold arraySuffixes
  rw [hs, Option.getD_some, suffixTurn_done hl]
  exact hlast

/-! ## Types that end in a string without a closing quote -/

/-- A text that does not close a string. What follows a backslash does not
count. -/
inductive Unclosed (quote : Char) : List Char → Prop
  | nil : Unclosed quote []
  | backslash : Unclosed quote ['\\']
  | escape {c : Char} {rest : List Char} : Unclosed quote rest →
      Unclosed quote ('\\' :: c :: rest)
  | other {c : Char} {rest : List Char} : c ≠ '\\' → c ≠ quote → Unclosed quote rest →
      Unclosed quote (c :: rest)

theorem lt_typeStringLength_of_unclosed {quote : Char} {l : List Char} (h : Unclosed quote l) :
    l.length < typeStringLength quote l := by
  induction h with
  | nil => simp [typeStringLength]
  | backslash => simp [typeStringLength]
  | escape _ ih =>
    simp only [typeStringLength, List.length_cons]
    omega
  | @other c rest hc hq _ ih =>
    rw [typeStringLength, if_neg hq, List.length_cons]
    · omega
    · rintro d l rfl
      exact absurd rfl hc
    · rintro rfl
      exact absurd rfl hc

theorem typeStringLength_le_or_unclosed (quote : Char) (l : List Char) :
    typeStringLength quote l ≤ l.length ∨ Unclosed quote l := by
  fun_induction typeStringLength quote l with
  | case1 c rest ih =>
    rcases ih with ih | ih
    · left
      simp only [List.length_cons]
      omega
    · exact .inr ih.escape
  | case2 => exact .inr .backslash
  | case3 rest h h' =>
    left
    simp only [List.length_cons]
    omega
  | case4 c rest h h' hc ih =>
    rcases ih with ih | ih
    · left
      simp only [List.length_cons]
      omega
    · refine .inr (.other ?_ hc ih)
      rintro rfl
      rcases rest with _ | ⟨d, rest⟩
      · exact h' rfl rfl
      · exact h d rest rfl rfl
  | case5 => exact .inr .nil

theorem typeStringLength_pos (quote : Char) (l : List Char) : 0 < typeStringLength quote l := by
  fun_cases typeStringLength quote l <;> omega

/-- A type from an index on, the last primary of which is a string that is not
closed. -/
inductive EndsUnclosed (src : List Char) : Nat → Prop
  | string {k : Nat} {quote : Char} : src[skipSpace src k]? = some quote →
      quote = '\'' ∨ quote = '"' → Unclosed quote (src.drop (skipSpace src k + 1)) →
      EndsUnclosed src k
  | next {k stop : Nat} : scanTypePrimary src k = some stop →
      src[skipSpace src stop]? = some '|' ∨ src[skipSpace src stop]? = some '&' →
      EndsUnclosed src (skipSpace src (skipSpace src stop + 1)) → EndsUnclosed src k

theorem typeAtomEnd_bounds {k stop : Nat} (h : typeAtomEnd src k = some stop) :
    k < stop ∧ (stop ≤ src.length ∨ ∃ quote, src[k]? = some quote ∧
      (quote = '\'' ∨ quote = '"') ∧ Unclosed quote (src.drop (k + 1))) := by
  unfold typeAtomEnd at h
  rcases hc : src[k]? with _ | c
  · simp [hc] at h
  · have hk := lt_length hc
    simp only [hc] at h
    split_ifs at h with hq hd hw
    · obtain rfl : _ = stop := by simpa using h
      have hpos := typeStringLength_pos c (src.drop (k + 1))
      refine ⟨by omega, ?_⟩
      rcases typeStringLength_le_or_unclosed c (src.drop (k + 1)) with hle | hun
      · left
        rw [List.length_drop] at hle
        omega
      · exact .inr ⟨c, rfl, hq, hun⟩
    · obtain rfl : _ = stop := by simpa using h
      refine ⟨lt_skipWhile hc ?_, .inl (skipWhile_le hk.le)⟩
      simp [Char.isAlphanum, hd]
    · unfold namedTypeEnd at h
      obtain ⟨mid, hm, h⟩ := Option.bind_eq_some_iff.1 h
      have hb := qualifiedEnd_bounds hk.le hm
      dsimp only at h
      split_ifs at h with ha
      · have hs := scanAngleBalancedFrom_bounds h
        have hle : mid ≤ skipSpace src mid := le_skipSpace
        exact ⟨by omega, .inl hs.2⟩
      · obtain rfl : mid = stop := by simpa using h
        exact ⟨hb.1, .inl hb.2⟩

theorem scanTypePrimary_bounds {k stop : Nat} (h : scanTypePrimary src k = some stop) :
    k < stop ∧ (stop ≤ src.length ∨ EndsUnclosed src k) := by
  unfold scanTypePrimary at h
  obtain ⟨mid, hm, rfl⟩ := Option.map_eq_some_iff.1 h
  have hle : k ≤ skipSpace src k := le_skipSpace
  obtain ⟨hlt, hmid⟩ := typeAtomEnd_bounds hm
  obtain ⟨hge, hsuf⟩ := arraySuffixes_bounds src mid
  refine ⟨by omega, ?_⟩
  rcases hmid with hmid | ⟨quote, hc, hq, hun⟩
  · exact .inl (hsuf hmid)
  · exact .inr (.string hc hq hun)

/-- A turn at a `|` or `&` goes on behind it, in the source. -/
theorem typeTurn_again {k k' : Nat} (h : typeTurn src k = .again k') :
    (k < k' ∧ k' ≤ src.length) ∧ (EndsUnclosed src k' → EndsUnclosed src k) := by
  unfold typeTurn at h
  rcases hp : scanTypePrimary src k with _ | stop
  · simp [hp] at h
  · simp only [hp] at h
    have hlt := (scanTypePrimary_bounds hp).1
    have hle : stop ≤ skipSpace src stop := le_skipSpace
    split_ifs at h with hc
    obtain rfl : _ = k' := by simpa using h
    have hin : skipSpace src stop < src.length := hc.elim lt_length lt_length
    have hend : skipSpace src (skipSpace src stop + 1) ≤ src.length := skipSpace_le (by omega)
    have hge : skipSpace src stop + 1 ≤ skipSpace src (skipSpace src stop + 1) := le_skipSpace
    exact ⟨by omega, .next hp hc⟩

theorem typeTurn_done {k stop : Nat} (h : typeTurn src k = .done (some stop)) :
    scanTypePrimary src k = some stop := by
  unfold typeTurn at h
  rcases hp : scanTypePrimary src k with _ | mid
  · simp [hp] at h
  · simp only [hp] at h
    split_ifs at h
    simpa using h

theorem type_ends (src : List Char) (k : Nat) :
    (loop (typeTurn src) (src.length + 1) k).isSome := by
  refine loop_isSome (fun k => src.length - k) ?_ _ k (by omega)
  intro s s' h
  have := (typeTurn_again h).1
  omega

/-- A type ends in the source, or in a string that is not closed. -/
theorem scanSimpleType_bounds {k stop : Nat} (h : scanSimpleType src k = some stop) :
    k < stop ∧ (stop ≤ src.length ∨ EndsUnclosed src k) := by
  obtain ⟨r, hs⟩ := Option.isSome_iff_exists.1 (type_ends src k)
  unfold scanSimpleType at h
  rw [hs, Option.getD_some] at h
  obtain ⟨last, hr, hl⟩ := exists_of_loop hs
  subst h
  have hback : k ≤ last ∧ (EndsUnclosed src last → EndsUnclosed src k) :=
    hr.invariant (I := fun i => k ≤ i ∧ (EndsUnclosed src i → EndsUnclosed src k)) ⟨le_rfl, id⟩
      fun s s' hs h => by
        obtain ⟨hb, hu⟩ := typeTurn_again h
        exact ⟨by omega, fun hun => hs.2 (hu hun)⟩
  obtain ⟨hlt, hend⟩ := scanTypePrimary_bounds (typeTurn_done hl)
  exact ⟨by omega, hend.imp id hback.2⟩

theorem scanTypePrimary_of_unclosed {k : Nat} {quote : Char}
    (hc : src[skipSpace src k]? = some quote) (hq : quote = '\'' ∨ quote = '"')
    (hun : Unclosed quote (src.drop (skipSpace src k + 1))) :
    ∃ stop, scanTypePrimary src k = some stop ∧ src.length < stop := by
  have hatom : typeAtomEnd src (skipSpace src k) = some (skipSpace src k + 1 +
      typeStringLength quote (src.drop (skipSpace src k + 1))) := by
    simp only [typeAtomEnd, hc, if_pos hq]
  refine ⟨_, by rw [scanTypePrimary, hatom, Option.map_some], lt_of_lt_of_le ?_
    (arraySuffixes_bounds src _).1⟩
  have hlt := lt_typeStringLength_of_unclosed hun
  have hin := lt_length hc
  rw [List.length_drop] at hlt
  omega

/-- The scan of such a type ends outside of the source. -/
theorem scanSimpleType_of_endsUnclosed {k : Nat} (h : EndsUnclosed src k) :
    ∃ stop, scanSimpleType src k = some stop ∧ src.length < stop := by
  have hlast : ∃ last stop, Reaches (typeTurn src) k last ∧
      typeTurn src last = .done (some stop) ∧ src.length < stop := by
    induction h with
    | @string k quote hc hq hun =>
      obtain ⟨stop, hp, hlt⟩ := scanTypePrimary_of_unclosed hc hq hun
      have hnone : src[skipSpace src stop]? = none :=
        List.getElem?_eq_none (hlt.le.trans le_skipSpace)
      refine ⟨k, stop, .refl, ?_, hlt⟩
      simp [typeTurn, hp, hnone]
    | @next k stop hp hc _ ih =>
      obtain ⟨last, stop', hr, hl, hlt⟩ := ih
      refine ⟨last, stop', hr.head ?_, hl, hlt⟩
      simp only [typeTurn, hp, if_pos hc]
  obtain ⟨last, stop, hr, hl, hlt⟩ := hlast
  refine ⟨stop, ?_, hlt⟩
  unfold scanSimpleType
  rw [loop_of_reaches hr hl (type_ends src k), Option.getD_some]

/-! ## The layout -/

/-- As many characters, the ends of lines where they were, and every other
character as it was or blank. -/
structure SameLayout (src out : List Char) : Prop where
  length : out.length = src.length
  newlines : ∀ k : Nat, out[k]? = some '\n' ↔ src[k]? = some '\n'
  others : ∀ (k : Nat) (c : Char), src[k]? = some c → out[k]? = some c ∨ out[k]? = some ' '

namespace Stripper

variable {s next : Stripper}

/-- A text with the characters from one index to another blanked. -/
def blanked (start stop : Nat) (l : List Char) : List Char :=
  l.mapIdx fun k c => if start ≤ k ∧ k < stop then blankChar c else c

theorem blankChar_eq (c : Char) : blankChar c = c ∨ blankChar c = ' ' := by
  unfold blankChar
  split
  · exact .inr rfl
  · exact .inl rfl

theorem blankChar_eq_newline {c : Char} : blankChar c = '\n' ↔ c = '\n' := by
  unfold blankChar
  constructor
  · intro h
    split at h
    · exact absurd h (by decide)
    · exact h
  · rintro rfl
    rfl

theorem sameLayout_blanked {src out : List Char} (h : SameLayout src out) (start stop : Nat) :
    SameLayout src (blanked start stop out) where
  length := by
    unfold blanked
    rw [List.length_mapIdx, h.length]
  newlines k := by
    rw [← h.newlines k]
    unfold blanked
    rw [List.getElem?_mapIdx]
    rcases out[k]? with _ | c
    · simp
    · simp only [Option.map_some, Option.some.injEq]
      split
      · exact blankChar_eq_newline
      · exact Iff.rfl
  others k c hc := by
    unfold blanked
    rw [List.getElem?_mapIdx]
    rcases h.others k c hc with ho | ho <;> rw [ho] <;>
      simp only [Option.map_some, Option.some.injEq]
    · split
      · exact blankChar_eq c
      · exact .inl rfl
    · right
      split
      · rfl
      · rfl

/-! ## What a token does -/

/-- The scan went on in the same source, and kept the layout. -/
structure Follows (s next : Stripper) : Prop where
  src : next.src = s.src
  index : s.i ≤ next.i
  layout : ∀ src, SameLayout src s.out → SameLayout src next.out

/-- The text is left as it is. -/
theorem Follows.of_out (hs : next.src = s.src) (hi : s.i ≤ next.i) (ho : next.out = s.out) :
    Follows s next := ⟨hs, hi, fun _ h => ho ▸ h⟩

/-- A range of the text is blanked. -/
theorem Follows.of_blanked {start stop : Nat} (hs : next.src = s.src) (hi : s.i ≤ next.i)
    (ho : next.out = blanked start stop s.out) : Follows s next :=
  ⟨hs, hi, fun _ h => ho ▸ sameLayout_blanked h start stop⟩

theorem blank_of_le {start stop : Nat} (h : stop ≤ s.out.length) :
    s.blank start stop = .ok { s with out := blanked start stop s.out } := by
  unfold blank
  rw [if_neg (by omega)]
  rfl

theorem blank_of_lt {start stop : Nat} (hlt : start < stop) (h : s.out.length < stop) :
    s.blank start stop = .error .panic := by
  unfold blank
  rw [if_pos ⟨hlt, h⟩]

/-- The colon of an annotation: of no conditional, object or label. -/
def AtAnnotation (s : Stripper) : Prop :=
  s.src[s.i]? = some ':' ∧ s.ternary = 0 ∧ s.inObject = false ∧ s.labelColon = false

/-- An `as` behind a value. -/
def AtCast (s : Stripper) : Prop :=
  (∃ c, s.src[s.i]? = some c ∧ isWordStart c = true) ∧
    slice s.src s.i (wordEnd s.src s.i) = "as" ∧ prevIsDot s.src s.i = false ∧ s.prev = .value

/-- The type of an annotation or of a cast ends in a string that is not
closed. -/
def Overruns (s : Stripper) : Prop :=
  s.AtAnnotation ∧ EndsUnclosed s.src (skipTrivia s.src (s.i + 1)) ∨
    s.AtCast ∧ EndsUnclosed s.src (skipTrivia s.src (wordEnd s.src s.i))

/-- What a token comes to. -/
inductive Outcome (s : Stripper) : Except Halt Stripper → Prop
  | follows {next : Stripper} : Follows s next → s.i < next.i → Outcome s (.ok next)
  | rejects (e : StripError) : Outcome s (.error (.error e))
  | overruns : s.Overruns → Outcome s (.error .panic)

/-- A token that leaves the text as it is. -/
theorem Outcome.of_out (hs : next.src = s.src) (hi : s.i < next.i) (ho : next.out = s.out) :
    Outcome s (.ok next) := .follows (.of_out hs hi.le ho) hi

theorem Outcome.ite {p : Prop} [Decidable p] {r r' : Except Halt Stripper}
    (h : p → Outcome s r) (h' : ¬p → Outcome s r') : Outcome s (if p then r else r') := by
  by_cases hp : p
  · rw [if_pos hp]
    exact h hp
  · rw [if_neg hp]
    exact h' hp

theorem lt_skipRegex : s.i < s.skipRegex.i := by
  have h : s.i + 1 + regexLength false (s.src.drop (s.i + 1)) ≤ s.skipRegex.i := le_skipWhile
  omega

theorem lt_skipString (quote : Char) : s.i < (s.skipString quote).i := by
  have h : (s.skipString quote).i = s.i + 1 + stringLength quote (s.src.drop (s.i + 1)) := rfl
  omega

theorem lt_skipTemplate : s.i < s.skipTemplate.i := by
  have h : s.i + 1 ≤ s.skipTemplate.i := le_templateEnd
  omega

theorem stripInterface_follows (start : Nat) (hi : s.i ≤ s.len) (ho : s.out.length = s.len) :
    ∃ next, s.stripInterface start = .ok next ∧ Follows s next := by
  have hge : s.i ≤ skipWhile (· ≠ '\x7b') s.src s.i := le_skipWhile
  have hle : skipWhile (· ≠ '\x7b') s.src s.i ≤ s.len := skipWhile_le hi
  have hlen := interfaceLength_le (s.src.drop (skipWhile (· ≠ '\x7b') s.src s.i)) 0
  rw [List.length_drop] at hlen
  unfold stripInterface
  dsimp only
  split
  · exact ⟨_, blank_of_le (by rw [ho]; exact hle), .of_blanked rfl hge rfl⟩
  · refine ⟨_, blank_of_le ?_, .of_blanked rfl ?_ rfl⟩
    · dsimp only
      unfold len at ho hle
      omega
    · dsimp only
      omega

theorem stripTypeAlias_follows (start : Nat) (hi : s.i ≤ s.len) (ho : s.out.length = s.len) :
    ∃ next, s.stripTypeAlias start = .ok next ∧ Follows s next := by
  have hlen := aliasLength_le (s.src.drop s.i) 0
  rw [List.length_drop] at hlen
  refine ⟨_, blank_of_le ?_, .of_blanked rfl ?_ rfl⟩
  · dsimp only
    unfold len at hi ho
    omega
  · dsimp only
    omega

theorem maybeStripFunctionGenerics_follows (ho : s.out.length = s.len) :
    ∃ next, s.maybeStripFunctionGenerics = .ok next ∧ Follows s next := by
  have hname : s.i ≤ skipTrivia s.src s.i := le_skipTrivia
  have hstart : s.i ≤ skipTrivia s.src (if s.src[skipTrivia s.src s.i]?.any isWordStart
      then wordEnd s.src (skipTrivia s.src s.i) else skipTrivia s.src s.i) := by
    refine le_trans ?_ le_skipTrivia
    split
    · exact hname.trans le_wordEnd
    · exact hname
  unfold maybeStripFunctionGenerics
  dsimp only
  generalize skipTrivia s.src (if s.src[skipTrivia s.src s.i]?.any isWordStart
      then wordEnd s.src (skipTrivia s.src s.i) else skipTrivia s.src s.i) = start at hstart ⊢
  by_cases hopen : s.src[start]? = some '<'
  · rw [if_pos hopen]
    rcases hstop : scanAngleBalancedFrom s.src start with _ | stop
    · exact ⟨s, rfl, .of_out rfl le_rfl rfl⟩
    · obtain ⟨hlt, hle⟩ := scanAngleBalancedFrom_bounds hstop
      dsimp only
      rw [blank_of_le (by rw [ho]; exact hle)]
      exact ⟨_, rfl, .of_blanked rfl (hstart.trans hlt.le) rfl⟩
  · rw [if_neg hopen]
    exact ⟨s, rfl, .of_out rfl le_rfl rfl⟩

theorem handleLt_outcome : Outcome s s.handleLt := by
  unfold handleLt
  dsimp only
  split
  · exact .rejects _
  · exact .of_out rfl (Nat.lt_succ_self _) rfl

theorem handleQuestion_outcome (hc : s.i < s.len) (ho : s.out.length = s.len) :
    Outcome s s.handleQuestion := by
  unfold handleQuestion
  split_ifs
  · exact .of_out rfl (by simp [goOn]) rfl
  · rw [blank_of_le (by rw [ho]; exact hc)]
    exact .follows (.of_blanked rfl (Nat.le_succ _) rfl) (Nat.lt_succ_self _)
  · exact .of_out rfl (Nat.lt_succ_self _) rfl

theorem isAnnotationTerminator_of_length_le {stop : Nat} (h : src.length ≤ stop) :
    isAnnotationTerminator src stop = true := by
  have hnone : src[stop]? = none := List.getElem?_eq_none h
  unfold isAnnotationTerminator
  simp only [skipTrivia_of_length_le h, hnone]

theorem handleColon_outcome (hc : s.src[s.i]? = some ':') (ho : s.out.length = s.len) :
    Outcome s s.handleColon := by
  unfold handleColon
  split_ifs with ht hobject hlabel
  · exact .of_out rfl (Nat.lt_succ_self _) rfl
  · exact .of_out rfl (Nat.lt_succ_self _) rfl
  · exact .of_out rfl (Nat.lt_succ_self _) rfl
  have hstart : s.i + 1 ≤ skipTrivia s.src (s.i + 1) := le_skipTrivia
  dsimp only
  rcases hscan : scanSimpleType s.src (skipTrivia s.src (s.i + 1)) with _ | stop
  · exact .of_out rfl hstart rfl
  dsimp only
  split
  case isFalse => exact .of_out rfl hstart rfl
  obtain ⟨hlt, hend⟩ := scanSimpleType_bounds hscan
  by_cases hstop : stop ≤ s.src.length
  · rw [blank_of_le (by rw [ho]; exact hstop)]
    exact .follows (.of_blanked rfl (by simp only [goOn]; omega) rfl) (by simp only [goOn]; omega)
  · rw [blank_of_lt (by omega) (by rw [ho]; unfold len; omega)]
    have hmark : s.AtAnnotation :=
      ⟨hc, by simpa using ht, by simpa using hobject, by simpa using hlabel⟩
    exact .overruns (.inl ⟨hmark, hend.resolve_left hstop⟩)

theorem handleColon_of_annotation (h : s.AtAnnotation) (ho : s.out.length = s.len)
    (hun : EndsUnclosed s.src (skipTrivia s.src (s.i + 1))) :
    s.handleColon = .error .panic := by
  obtain ⟨hc, ht, hobject, hlabel⟩ := h
  obtain ⟨stop, hscan, hlt⟩ := scanSimpleType_of_endsUnclosed hun
  have hin := lt_length hc
  unfold handleColon
  rw [if_neg (by simp [ht]), if_neg (by simp [hobject]), if_neg (by simp [hlabel])]
  simp only [hscan, isAnnotationTerminator_of_length_le hlt.le, if_true]
  rw [blank_of_lt (by omega) (by rw [ho]; exact hlt)]
  rfl

/-- A word that is left as it is. -/
theorem plainWord_outcome {i : Nat} {atStart : Bool} (hi : s.i < i) :
    Outcome s (.ok (({ s with i } : Stripper).plainWord atStart)) := .of_out rfl hi rfl

theorem handleWord_outcome {c : Char} (hc : s.src[s.i]? = some c) (hw : isWordStart c = true)
    (ho : s.out.length = s.len) : Outcome s s.handleWord := by
  have hlt := lt_wordEnd hc hw
  have hle : wordEnd s.src s.i ≤ s.len := wordEnd_le (lt_length hc).le
  unfold handleWord
  dsimp only
  -- the words are tried in the order of the source; only a cast can overrun the text
  refine .ite (fun _ => plainWord_outcome hlt) fun hdot => ?_
  refine .ite (fun _ => .rejects _) fun _ => ?_
  refine .ite (fun _ => .rejects _) fun _ => ?_
  refine .ite (fun _ => ?_) fun _ => ?_
  · obtain ⟨next, hn, hf⟩ := stripInterface_follows (s := { s with i := wordEnd s.src s.i }) s.i
      hle ho
    rw [hn]
    have hi := hlt.trans_le hf.index
    exact .follows ⟨hf.src, hi.le, hf.layout⟩ hi
  refine .ite (fun _ => ?_) fun _ => ?_
  · obtain ⟨next, hn, hf⟩ := stripTypeAlias_follows (s := { s with i := wordEnd s.src s.i }) s.i
      hle ho
    rw [hn]
    have hi := hlt.trans_le hf.index
    exact .follows ⟨hf.src, hi.le, hf.layout⟩ hi
  refine .ite (fun _ => ?_) fun _ => ?_
  · rw [blank_of_le (by exact hle.trans ho.ge)]
    exact .follows (.of_blanked rfl hlt.le rfl) hlt
  refine .ite (fun hcast => ?_) fun _ => ?_
  · unfold stripAs
    have htrivia : wordEnd s.src s.i ≤ skipTrivia s.src (wordEnd s.src s.i) := le_skipTrivia
    dsimp only
    rcases hscan : scanSimpleType s.src (skipTrivia s.src (wordEnd s.src s.i)) with _ | stop
    · exact .of_out rfl hlt rfl
    dsimp only
    obtain ⟨hstop, hend⟩ := scanSimpleType_bounds hscan
    by_cases hin : stop ≤ s.src.length
    · rw [blank_of_le (by exact hin.trans ho.ge)]
      have hi : s.i < stop := by omega
      exact .follows (.of_blanked rfl hi.le rfl) hi
    · rw [blank_of_lt (by omega) (by unfold len at ho; dsimp only; omega)]
      have hat : s.AtCast := ⟨⟨c, hc, hw⟩, hcast.1, by simpa using hdot, hcast.2⟩
      exact .overruns (.inr ⟨hat, hend.resolve_left hin⟩)
  refine .ite (fun _ => ?_) fun _ => ?_
  · obtain ⟨next, hn, hf⟩ := maybeStripFunctionGenerics_follows
      (s := { s with i := wordEnd s.src s.i, prev := .keywordExpr }) ho
    rw [hn]
    have hi := hlt.trans_le hf.index
    exact .follows ⟨hf.src, hi.le, hf.layout⟩ hi
  refine .ite (fun _ => .of_out rfl hlt rfl) fun _ => ?_
  refine .ite (fun _ => .of_out rfl hlt rfl) fun _ => ?_
  exact .ite (fun _ => .of_out rfl hlt rfl) fun _ => plainWord_outcome hlt

theorem handleWord_of_cast (h : s.AtCast) (ho : s.out.length = s.len)
    (hun : EndsUnclosed s.src (skipTrivia s.src (wordEnd s.src s.i))) :
    s.handleWord = .error .panic := by
  obtain ⟨⟨c, hc, hw⟩, has, hdot, hprev⟩ := h
  obtain ⟨stop, hscan, hlt⟩ := scanSimpleType_of_endsUnclosed hun
  have hin := lt_length hc
  have hword : s.i ≤ wordEnd s.src s.i := le_wordEnd
  have htrivia : wordEnd s.src s.i ≤ skipTrivia s.src (wordEnd s.src s.i) := le_skipTrivia
  unfold handleWord
  dsimp only
  rw [if_neg (by simp [hdot]), if_neg (by rw [has]; decide), if_neg (by rw [has]; decide),
    if_neg (by simp [has]), if_neg (by simp [has]), if_neg (by rw [has]; decide),
    if_pos ⟨has, hprev⟩]
  unfold stripAs
  dsimp only
  rw [hscan]
  dsimp only
  rw [blank_of_lt (by omega) (by dsimp only; rw [ho]; exact hlt)]
  rfl

theorem step_outcome {c : Char} (hc : s.src[s.i]? = some c) (ho : s.out.length = s.len) :
    Outcome s (s.step c) := by
  have hi : s.i < s.i + 1 := Nat.lt_succ_self _
  unfold step
  refine .ite (fun _ => .of_out rfl hi rfl) fun _ => ?_
  refine .ite (fun hline => ?_) fun _ => ?_
  · have hpos := lineCommentLength_pos (hline.1 ▸ hc)
    exact .of_out rfl (by dsimp only; omega) rfl
  refine .ite (fun _ => .of_out rfl (by dsimp only; omega) rfl) fun _ => ?_
  refine .ite (fun _ => .of_out rfl lt_skipRegex rfl) fun _ => ?_
  refine .ite (fun _ => .of_out rfl (lt_skipString c) rfl) fun _ => ?_
  refine .ite (fun _ => .of_out rfl lt_skipTemplate rfl) fun _ => ?_
  refine .ite (fun _ => .of_out rfl hi rfl) fun _ => ?_
  refine .ite (fun _ => .of_out rfl hi rfl) fun _ => ?_
  refine .ite (fun _ => .of_out rfl hi rfl) fun _ => ?_
  refine .ite (fun _ => handleQuestion_outcome (lt_length hc) ho) fun _ => ?_
  refine .ite (fun hcolon => handleColon_outcome (hcolon ▸ hc) ho) fun _ => ?_
  refine .ite (fun hword => handleWord_outcome hc hword ho) fun _ => ?_
  refine .ite (fun hdigit => ?_) fun _ => ?_
  · exact .of_out rfl (lt_skipWhile hc (by simp [Char.isAlphanum, hdigit])) rfl
  refine .ite (fun _ => .of_out rfl hi rfl) fun _ => ?_
  refine .ite (fun _ => .of_out rfl hi rfl) fun _ => ?_
  refine .ite (fun _ => .rejects _) fun _ => ?_
  refine .ite (fun _ => .of_out rfl (hi.trans (Nat.lt_succ_self _)) rfl) fun _ => ?_
  exact .ite (fun _ => handleLt_outcome) fun _ => .of_out rfl hi rfl

theorem isWhitespace_of_isWordStart {c : Char} (h : isWordStart c = true) :
    isWhitespace c = false := by
  have hcode : (65 ≤ c.toNat ∧ c.toNat ≤ 90) ∨ (97 ≤ c.toNat ∧ c.toNat ≤ 122) ∨
      c.toNat = 95 ∨ c.toNat = 36 := by
    simp only [isWordStart, Char.isAlpha, Char.isUpper, Char.isLower, Bool.or_eq_true,
      Bool.and_eq_true, decide_eq_true_eq, UInt32.le_iff_toNat_le] at h
    rcases h with ((⟨hlo, hhi⟩ | ⟨hlo, hhi⟩) | rfl) | rfl
    · exact .inl ⟨hlo, hhi⟩
    · exact .inr (.inl ⟨hlo, hhi⟩)
    · exact .inr (.inr (.inl rfl))
    · exact .inr (.inr (.inr rfl))
  simp only [isWhitespace, decide_eq_false_iff_not]
  omega

/-- A letter, `_` or `$` starts a word, whatever was before it. -/
theorem step_of_isWordStart {c : Char} (hc : isWordStart c = true) :
    s.step c = s.handleWord := by
  have hspace := isWhitespace_of_isWordStart hc
  have hne : ∀ d, isWordStart d = false → c ≠ d := by
    rintro d hd rfl
    rw [hc] at hd
    exact absurd hd (by decide)
  unfold step
  rw [if_neg (by simp [hspace]), if_neg fun h => hne '/' rfl h.1, if_neg fun h => hne '/' rfl h.1,
    if_neg fun h => hne '/' rfl h.1, if_neg fun h => h.elim (hne '\'' rfl) (hne '"' rfl),
    if_neg (hne '\x60' rfl), if_neg (hne '\x7b' rfl), if_neg (hne '\x7d' rfl),
    if_neg (hne ';' rfl), if_neg (hne '?' rfl), if_neg (hne ':' rfl), if_pos hc]

theorem turn_of_overruns (h : s.Overruns) (ho : s.out.length = s.len) :
    s.turn = .done (.error .panic) := by
  rcases h with ⟨hat, hun⟩ | ⟨hat, hun⟩
  · have hstep : s.step ':' = s.handleColon := rfl
    simp only [turn, hat.1, hstep, handleColon_of_annotation hat ho hun]
  · obtain ⟨⟨c, hc, hw⟩, -⟩ := id hat
    simp only [turn, hc, step_of_isWordStart hw, handleWord_of_cast hat ho hun]

end Stripper

/-! ## Where the scan is total -/

/-- The scan ends, never outside of the source, and what it returns has the
layout of the source. -/
def TotalAndLaidOut (src : List Char) : Prop :=
  ∃ r, (∀ turns, src.length < turns → stripTypes turns src = some r) ∧ r ≠ .error .panic ∧
    ∀ out, r = .ok out → SameLayout src out

theorem sameLayout_refl (src : List Char) : SameLayout src src :=
  ⟨rfl, fun _ => Iff.rfl, fun _ _ h => .inl h⟩

namespace Stripper

variable {src : List Char} {s : Stripper}

/-- What holds of every state of the scan of a source. -/
structure Scans (source : List Char) (s : Stripper) : Prop where
  src : s.src = source
  layout : SameLayout source s.out

theorem Scans.length (h : Scans src s) : s.out.length = s.len := by
  unfold len
  rw [h.layout.length, h.src]

theorem turn_again {s s' : Stripper} (ho : s.out.length = s.len) (h : s.turn = .again s') :
    Follows s s' ∧ s.i < s'.i ∧ s.i < s.len := by
  unfold turn at h
  rcases hc : s.src[s.i]? with _ | c
  · simp [hc] at h
  · simp only [hc] at h
    have hout := step_outcome hc ho
    rcases hs : s.step c with e | next
    · simp [hs] at h
    · simp only [hs, Turn.again.injEq] at h
      subst h
      rw [hs] at hout
      rcases hout with ⟨hf, hi⟩
      exact ⟨hf, hi, lt_length hc⟩

theorem scans_of_reaches (h : Reaches turn (init src) s) : Scans src s := by
  refine h.invariant ⟨rfl, sameLayout_refl src⟩ fun s s' hs ht => ?_
  have hf := (turn_again hs.length ht).1
  exact ⟨hf.src.trans hs.src, hf.layout src hs.layout⟩

/-- The scan is over at the end, at an error, or outside of the source. -/
theorem turn_done {r : Except Halt Stripper} (ho : s.out.length = s.len)
    (h : s.turn = .done r) : r = .ok s ∨ (∃ e, r = .error (.error e)) ∨ s.Overruns := by
  unfold turn at h
  rcases hc : s.src[s.i]? with _ | c
  · left
    simpa [hc] using h.symm
  · right
    simp only [hc] at h
    have hout := step_outcome hc ho
    rcases hs : s.step c with e | next
    · simp only [hs, Turn.done.injEq] at h
      subst h
      rw [hs] at hout
      rcases hout with _ | e | hover
      · exact .inl ⟨e, rfl⟩
      · exact .inr hover
    · simp [hs] at h

theorem scan_ends (src : List Char) {turns : Nat} (h : src.length < turns) :
    (loop turn turns (init src)).isSome := by
  refine loop_isSome_of_invariant (Scans src) (fun s => src.length - s.i)
    (fun s s' hs ht => ?_) turns _ ⟨rfl, sameLayout_refl src⟩ (by omega)
  obtain ⟨hf, hlt, hin⟩ := turn_again hs.length ht
  refine ⟨⟨hf.src.trans hs.src, hf.layout src hs.layout⟩, ?_⟩
  unfold len at hin
  rw [hs.src] at hin
  omega

end Stripper

/-- The scan of a source is total, and keeps the layout, exactly if it comes to
no annotation and no cast with a type that ends in a string which is not
closed. -/
theorem stripTypes_total_iff (src : List Char) : TotalAndLaidOut src ↔
    ∀ s, Reaches Stripper.turn (Stripper.init src) s → ¬ s.Overruns := by
  constructor
  · rintro ⟨r, hr, hpanic, -⟩ s hs hover
    have hends := Stripper.scan_ends src (Nat.lt_succ_self src.length)
    have hdone := Stripper.turn_of_overruns hover (Stripper.scans_of_reaches hs).length
    have hrun := hr (src.length + 1) (Nat.lt_succ_self _)
    rw [stripTypes, loop_of_reaches hs hdone hends] at hrun
    exact hpanic (Option.some.inj hrun).symm
  · intro hall
    obtain ⟨r, hr⟩ := Option.isSome_iff_exists.1
      (Stripper.scan_ends src (Nat.lt_succ_self src.length))
    obtain ⟨last, hreach, hlast⟩ := exists_of_loop hr
    have hscan := Stripper.scans_of_reaches hreach
    refine ⟨r.map Stripper.out, fun turns hturns => ?_, ?_⟩
    · rw [stripTypes, loop_of_reaches hreach hlast (Stripper.scan_ends src hturns),
        Option.map_some]
    rcases Stripper.turn_done hscan.length hlast with rfl | ⟨e, rfl⟩ | hover
    · refine ⟨by simp [Except.map], fun out hout => ?_⟩
      obtain rfl : last.out = out := by simpa [Except.map] using hout
      exact hscan.layout
    · exact ⟨by simp [Except.map], fun out hout => by simp [Except.map] at hout⟩
    · exact absurd hover (hall last hreach)

/-- The type of this declaration is a string that is not closed: its closing
quote is looked for behind the end. -/
theorem not_totalAndLaidOut_openString : ¬ TotalAndLaidOut "let x: 'a".toList := by
  rintro ⟨r, hr, hpanic, -⟩
  have hrun := hr 10 (by decide)
  have hstop : stripTypes 10 "let x: 'a".toList = some (.error .panic) := by decide +kernel
  rw [hstop] at hrun
  exact hpanic (Option.some.inj hrun).symm

end Strip

end Epiphany
