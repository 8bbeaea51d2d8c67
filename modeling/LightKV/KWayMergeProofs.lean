import LightKV.OverlayProofs
import Mathlib.Data.List.Basic
import Mathlib.Data.List.TakeWhile
import Mathlib.Order.Basic
import Mathlib.Order.Lattice

/-! # Merging sorted layers by rank

    Several lists, each strictly ascending by `key`, are merged into one list
    that is strictly ascending by `key` again: of the elements with one key, an
    element of the highest `rank` is kept.  `IsMerge` says what a merge is
    without saying how it is computed; the lemmas are its steps (take the least
    head, drop its key everywhere) and its repositioning (drop everything below
    a target everywhere). -/

namespace KWayMerge

open Overlay

variable {E K R : Type} [LinearOrder K] [LinearOrder R] {key : E → K} {rank : E → R}

/-- Keys strictly ascend. -/
def Ascending (key : E → K) (l : List E) : Prop := l.Pairwise (fun a b => key a < key b)

/-- What is left of a list behind a key. -/
def dropThrough (key : E → K) (k : K) (l : List E) : List E :=
  l.dropWhile (fun a => key a ≤ k)

/-- What is left of a list from a key on. -/
def dropBelow (key : E → K) (k : K) (l : List E) : List E :=
  l.dropWhile (fun a => key a < k)

/-- `out` is a merge of the layers `ls`. -/
structure IsMerge (key : E → K) (rank : E → R) (ls : List (List E)) (out : List E) : Prop where
  ascending : Ascending key out
  chosen : ∀ e ∈ out, (∃ l ∈ ls, e ∈ l)
    ∧ ∀ l ∈ ls, ∀ a ∈ l, key a = key e → rank a ≤ rank e
  covers : ∀ l ∈ ls, ∀ a ∈ l, ∃ e ∈ out, key e = key a

/-- No key stands in two layers with the same rank. -/
def Untied (key : E → K) (rank : E → R) (ls : List (List E)) : Prop :=
  ls.Pairwise (fun l m => ∀ a ∈ l, ∀ b ∈ m, key a = key b → rank a ≠ rank b)

/-- No key stands in two layers. -/
def Separate (key : E → K) (ls : List (List E)) : Prop :=
  ls.Pairwise (fun l m => ∀ a ∈ l, ∀ b ∈ m, key a ≠ key b)

theorem Ascending.tail {a : E} {l : List E} (h : Ascending key (a :: l)) : Ascending key l :=
  (List.pairwise_cons.mp h).2

theorem Ascending.head_lt {a : E} {l : List E} (h : Ascending key (a :: l)) :
    ∀ b ∈ l, key a < key b := (List.pairwise_cons.mp h).1

/-- Two elements of an ascending list with one key are the same element. -/
theorem Ascending.eq_of_key {l : List E} (h : Ascending key l) {a b : E} (ha : a ∈ l)
    (hb : b ∈ l) (hk : key a = key b) : a = b := by
  induction l with
  | nil => cases ha
  | cons c l ih =>
      rcases List.mem_cons.mp ha with hac | ha' <;> rcases List.mem_cons.mp hb with hbc | hb'
      · rw [hac, hbc]
      · exact absurd (hac ▸ hk) (h.head_lt b hb').ne
      · exact absurd (hbc ▸ hk) (h.head_lt a ha').ne'
      · exact ih h.tail ha' hb'

/-- Dropping a front of an ascending list by a downward closed test keeps
    exactly the elements that fail it. -/
theorem Ascending.mem_dropWhile {p : E → Bool}
    (hp : ∀ a b, key a < key b → p b = true → p a = true) {l : List E} (h : Ascending key l)
    (a : E) : a ∈ l.dropWhile p ↔ a ∈ l ∧ p a = false := by
  induction l with
  | nil => simp
  | cons b l ih =>
      by_cases hb : p b = true
      · rw [List.dropWhile_cons_of_pos hb, ih h.tail]
        constructor
        · rintro ⟨h1, h2⟩
          exact ⟨List.mem_cons_of_mem _ h1, h2⟩
        · rintro ⟨h1, h2⟩
          rcases List.mem_cons.mp h1 with heq | h1'
          · subst heq
            exact absurd hb (by simp [h2])
          · exact ⟨h1', h2⟩
      · rw [List.dropWhile_cons_of_neg hb]
        constructor
        · intro h1
          refine ⟨h1, ?_⟩
          rcases List.mem_cons.mp h1 with heq | h1'
          · subst heq
            simpa using hb
          · by_contra hc
            exact hb (hp b a (h.head_lt a h1') (by simpa using hc))
        · exact fun h1 => h1.1

theorem Ascending.mem_dropThrough {l : List E} (h : Ascending key l) (k : K) (a : E) :
    a ∈ dropThrough key k l ↔ a ∈ l ∧ k < key a := by
  rw [dropThrough, h.mem_dropWhile]
  · simp
  · intro b c hbc hc
    simp only [decide_eq_true_eq] at hc ⊢
    exact hbc.le.trans hc

theorem Ascending.mem_dropBelow {l : List E} (h : Ascending key l) (k : K) (a : E) :
    a ∈ dropBelow key k l ↔ a ∈ l ∧ k ≤ key a := by
  rw [dropBelow, h.mem_dropWhile]
  · simp
  · intro b c hbc hc
    simp only [decide_eq_true_eq] at hc ⊢
    exact hbc.trans hc

theorem Ascending.dropThrough {l : List E} (h : Ascending key l) (k : K) :
    Ascending key (dropThrough key k l) :=
  List.Pairwise.sublist (List.dropWhile_sublist _) h

theorem Ascending.dropBelow {l : List E} (h : Ascending key l) (k : K) :
    Ascending key (dropBelow key k l) :=
  List.Pairwise.sublist (List.dropWhile_sublist _) h

/-- What is left of an ascending list from a key on are its elements at or above. -/
theorem Ascending.dropBelow_eq_filter {l : List E} (h : Ascending key l) (k : K) :
    KWayMerge.dropBelow key k l = l.filter (fun a => k ≤ key a) := by
  induction l with
  | nil => rfl
  | cons a l ih =>
      by_cases hak : key a < k
      · rw [KWayMerge.dropBelow, List.dropWhile_cons_of_pos (by simpa using hak),
          List.filter_cons_of_neg (by simpa using hak)]
        exact ih h.tail
      · have hall : ∀ b ∈ a :: l, decide (k ≤ key b) = true := by
          intro b hb
          refine decide_eq_true ?_
          rcases List.mem_cons.mp hb with heq | hb'
          · exact heq ▸ not_lt.mp hak
          · exact (not_lt.mp hak).trans (h.head_lt b hb').le
        rw [KWayMerge.dropBelow, List.dropWhile_cons_of_neg (by simpa using hak),
          List.filter_eq_self.mpr hall]

/-- Stopping at the end of a lower set of keys keeps exactly the elements in it. -/
theorem Ascending.mem_takeWhile {l : List E} (h : Ascending key l) {p : K → Bool}
    (hdown : ∀ {j k : K}, j < k → p k = true → p j = true) {a : E} :
    a ∈ l.takeWhile (fun b => p (key b)) ↔ a ∈ l ∧ p (key a) = true := by
  induction l with
  | nil => simp
  | cons b l ih =>
      by_cases hb : p (key b) = true
      · simp only [List.takeWhile_cons, hb, if_true, List.mem_cons, ih h.tail]
        constructor
        · rintro (rfl | ⟨ha, hp⟩)
          · exact ⟨Or.inl rfl, hb⟩
          · exact ⟨Or.inr ha, hp⟩
        · rintro ⟨rfl | ha, hp⟩
          · exact Or.inl rfl
          · exact Or.inr ⟨ha, hp⟩
      · simp only [List.takeWhile_cons, if_neg hb, List.mem_cons]
        constructor
        · intro ha
          cases ha
        · rintro ⟨rfl | ha, hp⟩
          · exact absurd hp hb
          · exact absurd (hdown (h.head_lt a ha) hp) hb

/-- A list that starts behind a key is not touched. -/
theorem dropThrough_of_lt {k : K} {l : List E} (h : ∀ a ∈ l, k < key a) :
    dropThrough key k l = l := by
  cases l with
  | nil => rfl
  | cons a l =>
      have ha := h a List.mem_cons_self
      rw [dropThrough, List.dropWhile_cons_of_neg (by simpa using ha)]

/-- Dropping through a key takes the head with that key. -/
theorem dropThrough_cons_of_eq {k : K} {a : E} {l : List E} (h : key a = k) :
    dropThrough key k (a :: l) = dropThrough key k l := by
  rw [dropThrough, List.dropWhile_cons_of_pos (by simp [h])]
  rfl

variable {ls : List (List E)} {out : List E}

theorem isMerge_nil (h : ∀ l ∈ ls, l = []) : IsMerge key rank ls [] := by
  refine ⟨List.Pairwise.nil, by simp, ?_⟩
  intro l hl a ha
  rw [h l hl] at ha
  cases ha

/-- **One step of a merge.**  A least element of the layers, of the highest rank
    among those with its key, goes first; then its key is dropped everywhere. -/
theorem isMerge_cons {e : E} (hasc : ∀ l ∈ ls, Ascending key l) (hmem : ∃ l ∈ ls, e ∈ l)
    (hleast : ∀ l ∈ ls, ∀ a ∈ l, key e ≤ key a)
    (hbest : ∀ l ∈ ls, ∀ a ∈ l, key a = key e → rank a ≤ rank e)
    (hrest : IsMerge key rank (ls.map (dropThrough key (key e))) out) :
    IsMerge key rank ls (e :: out) := by
  have hout : ∀ b ∈ out, key e < key b := by
    intro b hb
    obtain ⟨⟨m, hm, hbm⟩, -⟩ := hrest.chosen b hb
    obtain ⟨l, hl, rfl⟩ := List.mem_map.mp hm
    exact ((hasc l hl).mem_dropThrough _ b |>.mp hbm).2
  refine ⟨List.pairwise_cons.mpr ⟨hout, hrest.ascending⟩, ?_, ?_⟩
  · intro b hb
    rcases List.mem_cons.mp hb with heq | hb'
    · rw [heq]
      exact ⟨hmem, hbest⟩
    · obtain ⟨⟨m, hm, hbm⟩, hmax⟩ := hrest.chosen b hb'
      obtain ⟨l, hl, rfl⟩ := List.mem_map.mp hm
      refine ⟨⟨l, hl, ((hasc l hl).mem_dropThrough _ b |>.mp hbm).1⟩, ?_⟩
      intro l' hl' a ha hab
      refine hmax _ (List.mem_map_of_mem hl') a ?_ hab
      exact ((hasc l' hl').mem_dropThrough _ a).mpr ⟨ha, hab ▸ hout b hb'⟩
  · intro l hl a ha
    rcases (hleast l hl a ha).lt_or_eq with hlt | heq
    · obtain ⟨b, hb, hab⟩ := hrest.covers _ (List.mem_map_of_mem hl) a
        (((hasc l hl).mem_dropThrough _ a).mpr ⟨ha, hlt⟩)
      exact ⟨b, List.mem_cons_of_mem _ hb, hab⟩
    · exact ⟨e, List.mem_cons_self, heq⟩

/-- **Repositioning.**  Dropping what is below a target from every layer drops it
    from the merge. -/
theorem IsMerge.dropBelow (hasc : ∀ l ∈ ls, Ascending key l) (h : IsMerge key rank ls out)
    (k : K) : IsMerge key rank (ls.map (dropBelow key k)) (dropBelow key k out) := by
  refine ⟨h.ascending.dropBelow k, ?_, ?_⟩
  · intro e he
    obtain ⟨heo, hek⟩ := (h.ascending.mem_dropBelow k e).mp he
    obtain ⟨⟨l, hl, hel⟩, hmax⟩ := h.chosen e heo
    refine ⟨⟨_, List.mem_map_of_mem hl, ((hasc l hl).mem_dropBelow k e).mpr ⟨hel, hek⟩⟩, ?_⟩
    intro m hm a ha hae
    obtain ⟨l', hl', rfl⟩ := List.mem_map.mp hm
    exact hmax l' hl' a ((hasc l' hl').mem_dropBelow k a |>.mp ha).1 hae
  · intro m hm a ha
    obtain ⟨l, hl, rfl⟩ := List.mem_map.mp hm
    obtain ⟨hal, hak⟩ := ((hasc l hl).mem_dropBelow k a).mp ha
    obtain ⟨e, he, hek⟩ := h.covers l hl a hal
    exact ⟨e, (h.ascending.mem_dropBelow k e).mpr ⟨he, hek ▸ hak⟩, hek⟩

/-- **The rest of a merge** merges what is left behind its first key. -/
theorem IsMerge.tail (hasc : ∀ l ∈ ls, Ascending key l) {e : E}
    (h : IsMerge key rank ls (e :: out)) :
    IsMerge key rank (ls.map (dropThrough key (key e))) out := by
  have hlt : ∀ b ∈ out, key e < key b := h.ascending.head_lt
  refine ⟨h.ascending.tail, ?_, ?_⟩
  · intro b hb
    obtain ⟨⟨l, hl, hbl⟩, hmax⟩ := h.chosen b (List.mem_cons_of_mem _ hb)
    refine ⟨⟨_, List.mem_map_of_mem hl,
      ((hasc l hl).mem_dropThrough _ b).mpr ⟨hbl, hlt b hb⟩⟩, ?_⟩
    intro m hm a ha hab
    obtain ⟨l', hl', rfl⟩ := List.mem_map.mp hm
    exact hmax l' hl' a ((hasc l' hl').mem_dropThrough _ a |>.mp ha).1 hab
  · intro m hm a ha
    obtain ⟨l, hl, rfl⟩ := List.mem_map.mp hm
    obtain ⟨hal, hea⟩ := ((hasc l hl).mem_dropThrough _ a).mp ha
    obtain ⟨b, hb, hab⟩ := h.covers l hl a hal
    rcases List.mem_cons.mp hb with heq | hb'
    · exact absurd (heq ▸ hab) hea.ne
    · exact ⟨b, hb', hab⟩

/-- The first element of a merge is a least one. -/
theorem IsMerge.head_le {e : E} (h : IsMerge key rank ls (e :: out)) :
    ∀ l ∈ ls, ∀ a ∈ l, key e ≤ key a := by
  intro l hl a ha
  obtain ⟨b, hb, hab⟩ := h.covers l hl a ha
  rcases List.mem_cons.mp hb with heq | hb'
  · rw [← hab, heq]
  · exact hab ▸ (h.ascending.head_lt b hb').le

omit [LinearOrder R] in
/-- Elements with one key and one rank, in layers without ties, are one element. -/
theorem Untied.eq_of_key_rank (hun : Untied key rank ls) (hasc : ∀ l ∈ ls, Ascending key l)
    {l m : List E} (hl : l ∈ ls) (hm : m ∈ ls) {a b : E} (ha : a ∈ l) (hb : b ∈ m)
    (hk : key a = key b) (hr : rank a = rank b) : a = b := by
  induction ls with
  | nil => cases hl
  | cons c ls ih =>
      obtain ⟨hc, hun'⟩ := List.pairwise_cons.mp hun
      rcases List.mem_cons.mp hl with hlc | hl' <;> rcases List.mem_cons.mp hm with hmc | hm'
      · subst hlc
        subst hmc
        exact (hasc _ List.mem_cons_self).eq_of_key ha hb hk
      · subst hlc
        exact absurd hr (hc m hm' a ha b hb hk)
      · subst hmc
        exact absurd hr.symm (hc l hl' b hb a ha hk.symm)
      · exact ih hun' (fun l hl => hasc l (List.mem_cons_of_mem _ hl)) hl' hm'

omit [LinearOrder K] in
/-- Layers that share no key are without ties, whatever their ranks. -/
theorem Separate.untied {S : Type} (h : Separate key ls) (rank : E → S) : Untied key rank ls :=
  h.imp (fun hne a ha b hb hk => absurd hk (hne a ha b hb))

/-- A merge does not depend on the order of the layers. -/
theorem IsMerge.of_perm {ms : List (List E)} (h : IsMerge key rank ls out) (hp : ls.Perm ms) :
    IsMerge key rank ms out := by
  refine ⟨h.ascending, ?_, fun m hm => h.covers m (hp.mem_iff.mpr hm)⟩
  intro e he
  obtain ⟨⟨l, hl, hel⟩, hmax⟩ := h.chosen e he
  exact ⟨⟨l, hp.mem_iff.mp hl, hel⟩, fun m hm => hmax m (hp.mem_iff.mpr hm)⟩

omit [LinearOrder K] [LinearOrder R] in
/-- Nor does the absence of ties. -/
theorem Untied.of_perm {ms : List (List E)} (h : Untied key rank ls) (hp : ls.Perm ms) :
    Untied key rank ms :=
  (hp.pairwise_iff fun hlm a ha b hb hk hr => hlm b hb a ha hk.symm hr.symm).mp h

/-- **A merge of layers that share no key** has all their elements. -/
theorem IsMerge.mem_iff_of_separate (hsep : Separate key ls) (hasc : ∀ l ∈ ls, Ascending key l)
    (h : IsMerge key rank ls out) {a : E} : a ∈ out ↔ ∃ l ∈ ls, a ∈ l := by
  constructor
  · intro ha
    exact (h.chosen a ha).1
  · rintro ⟨l, hl, hal⟩
    obtain ⟨e, he, hk⟩ := h.covers l hl a hal
    obtain ⟨⟨m, hm, hem⟩, -⟩ := h.chosen e he
    -- with all ranks equal, elements with one key are one element
    have heq : e = a := (hsep.untied (fun _ => ())).eq_of_key_rank hasc hm hl hem hal hk rfl
    rwa [heq] at he

end KWayMerge
