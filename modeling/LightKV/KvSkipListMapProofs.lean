import LightKV.KvSkipListProofs
import Mathlib.Logic.Function.Basic

/-! # The skip list as a sorted map

    `SkipList<K, V>::erase` descends as `put` does, takes the node out of each
    of its levels, deletes it, and drops the levels that became empty.  It keeps
    the shape of the list and removes its key from the contents (`erase_spec`).

    Result: after any calls of `put`, `erase` and `clear`, whatever heights are
    drawn, the list answers as the finite map of those calls does
    (`skipList_refines_map`). -/

namespace KvSkipListMap

open KvBytes KvSkipList Chain Overlay

variable {K V : Type}

/-! ## The code of `erase` -/

/-- `for (i = 0; i < curr->forward.size(); ++i)`: on each of its levels `curr` is
    left out, if the pointer of `update[i]` leads to it. -/
def SkipList.unlink (update : List (Option Nat)) (curr : Nat) :
    Nat → Nat → SkipList K V → Except Fault (SkipList K V)
  | 0, _, s => pure s
  | n + 1, i, s => do
      let u ← match update[i]? with
        | some (some a) => pure a
        | some none => .error .nullPointer
        | none => .error .outOfBounds
      let un ← s.deref (some u)
      let next ← un.forwardAt i
      if next = some curr then do
        let cn ← s.deref (some curr)
        let behind ← cn.forwardAt i
        let s ← s.setForward u i behind
        SkipList.unlink update curr n (i + 1) s
      else SkipList.unlink update curr n (i + 1) s

/-- `delete curr`. -/
def SkipList.delete (s : SkipList K V) (a : Nat) : SkipList K V :=
  { s with nodes := fun b => if b = a then none else s.nodes b }

/-- `while (current_level > 1 && head->forward[current_level - 1] == nullptr)`. -/
def SkipList.dropLevels (s : SkipList K V) : Nat → Except Fault Nat
  | 0 => pure 0
  | 1 => pure 1
  | level + 2 => do
      let h ← s.deref (some s.head)
      let first ← h.forwardAt (level + 1)
      match first with
      | none => SkipList.dropLevels s (level + 1)
      | some _ => pure (level + 2)

/-- The part of `erase` that takes a node out. -/
def SkipList.eraseNode (s : SkipList K V) (update : List (Option Nat)) (curr height : Nat) :
    Except Fault (SkipList K V) := do
  let s ← SkipList.unlink update curr height 0 s
  let s := SkipList.delete s curr
  let currentLevel ← SkipList.dropLevels s s.currentLevel
  pure { s with currentLevel := currentLevel, nodeCount := s.nodeCount - 1 }

/-- `erase`, and whether there was something to erase. -/
def SkipList.erase [LinearOrder K] (s : SkipList K V) (key : K) :
    Except Fault (SkipList K V × Bool) := do
  let (curr, update) ← s.descend key s.currentLevel s.head (List.replicate s.maxLevel none)
  let node ← s.deref (some curr)
  let next ← node.forwardAt 0
  match next with
  | none => pure (s, false)
  | some c => do
      let cn ← s.deref (some c)
      if cn.key = key then do
        let s ← SkipList.eraseNode s update c cn.forward.length
        pure (s, true)
      else pure (s, false)

/-! ## The loops -/

/-- **The unlinking loop** leads the pointer of `u j` past the node on each of its
    levels `j`. -/
theorem unlink_spec {update : List (Option Nat)} {curr : Nat} {u : Nat → Nat} :
    ∀ (n i : Nat) (s : SkipList K V),
      (∀ j, i ≤ j → j < i + n → update[j]? = some (some (u j)) ∧ Readable s (u j) j
        ∧ s.next j (u j) = some curr ∧ Readable s curr j) →
      ∃ s', SkipList.unlink update curr n i s = .ok s' ∧ Relinked s s'
        ∧ ∀ j a, s'.next j a
          = if (i ≤ j ∧ j < i + n) ∧ a = u j then s.next j curr else s.next j a := by
  intro n
  induction n with
  | zero =>
      intro i s _
      refine ⟨s, rfl, Relinked.refl s, ?_⟩
      intro j a
      rw [if_neg (by omega)]
  | succ n ih =>
      intro i s hyp
      obtain ⟨hupd, ⟨m, hm, hmi⟩, hleads, c, hc, hci⟩ := hyp i (Nat.le_refl i) (by omega)
      obtain ⟨s₁, hrun₁, hrel₁, hnext₁⟩ := setForward_spec (s.next i curr) ⟨m, hm, hmi⟩
      -- the other levels are as they were
      have hother : ∀ j a, j ≠ i → s₁.next j a = s.next j a := by
        intro j a hj
        rw [hnext₁, if_neg (fun h => hj h.1)]
      obtain ⟨s₂, hrun₂, hrel₂, hnext₂⟩ := ih (i + 1) s₁ (by
        intro j hj1 hj2
        obtain ⟨h1, h2, h3, h4⟩ := hyp j (by omega) (by omega)
        refine ⟨h1, hrel₁.readable h2, ?_, hrel₁.readable h4⟩
        rw [hother j _ (by omega)]
        exact h3)
      refine ⟨s₂, ?_, hrel₁.trans hrel₂, ?_⟩
      · rw [SkipList.unlink, hupd]
        simp only [pure, Except.pure, ok_bind, deref_of_nodes hm, forwardAt_eq_next hm hmi,
          if_pos hleads, deref_of_nodes hc, forwardAt_eq_next hc hci, hrun₁]
        exact hrun₂
      · intro j a
        rw [hnext₂]
        by_cases hj : j = i
        · subst hj
          rw [if_neg (by omega), hnext₁]
          by_cases ha : a = u j
          · rw [if_pos ⟨rfl, ha⟩, if_pos ⟨by omega, ha⟩]
          · rw [if_neg (fun h => ha h.2), if_neg (fun h => ha h.2)]
        · rw [hother j _ hj, hother j _ hj]
          have hiff : (i + 1 ≤ j ∧ j < i + 1 + n) ↔ (i ≤ j ∧ j < i + (n + 1)) := by omega
          simp only [hiff]

/-- **The loop over the levels** stops at the bottom one, or at the first level
    from above that the head still leads into. -/
theorem dropLevels_spec (s : SkipList K V) :
    ∀ level, (∀ j < level, Readable s s.head j) →
      ∃ level', SkipList.dropLevels s level = .ok level' ∧ (0 < level → 0 < level')
        ∧ level' ≤ level ∧ ∀ j, level' ≤ j → j < level → s.next j s.head = none := by
  intro level
  induction level with
  | zero =>
      intro _
      exact ⟨0, rfl, fun h => h, Nat.le_refl 0, fun j _ hj => absurd hj (Nat.not_lt_zero j)⟩
  | succ level ih =>
      intro hread
      cases level with
      | zero => exact ⟨1, rfl, fun h => h, Nat.le_refl 1, fun j h1 h2 => by omega⟩
      | succ level =>
          obtain ⟨h, hh, hlen⟩ := hread (level + 1) (by omega)
          rw [SkipList.dropLevels]
          simp only [deref_of_nodes hh, forwardAt_eq_next hh hlen, ok_bind]
          cases hfirst : s.next (level + 1) s.head with
          | none =>
              obtain ⟨level', hrun, hpos, hle, hnone⟩ := ih (fun j hj => hread j (by omega))
              refine ⟨level', hrun, fun _ => hpos (Nat.succ_pos _), by omega, ?_⟩
              intro j h1 h2
              by_cases hj : j = level + 1
              · exact hj ▸ hfirst
              · exact hnone j h1 (by omega)
          | some a => exact ⟨level + 2, rfl, fun h => h, Nat.le_refl _, fun j h1 h2 => by omega⟩

/-! ## Taking a node out -/

section Erase

variable [LinearOrder K] {s : SkipList K V} {ts pre post : List (Tower K V)} {key : K}
  {t : Tower K V}

/-- On each of its levels a tower comes right behind its predecessor. -/
theorem next_pred_of_tower (hs : Shape s ts) (heq : ts = pre ++ t :: post) (ht : t ∈ ts) {j : Nat}
    (hj : j < t.height) : s.next j (pred s pre j) = some t.addr := by
  have hlevel : j < s.maxLevel := by
    have h1 := hs.level
    have h2 := hs.height t ht
    omega
  have hlink := hs.linked j hlevel
  rw [heq, levelAddrs_insert, if_pos hj] at hlink
  exact next_lastOf hlink

/-- What taking the tower `t` out leaves. -/
structure Erased (s s' : SkipList K V) (pre : List (Tower K V)) (t : Tower K V) : Prop where
  head : s'.head = s.head
  maxLevel : s'.maxLevel = s.maxLevel
  fresh : s'.fresh = s.fresh
  nodeCount : s'.nodeCount = s.nodeCount - 1
  nodes : ∀ a n, a ≠ t.addr → s.nodes a = some n → ∃ fwd,
    s'.nodes a = some ⟨n.key, n.value, fwd⟩ ∧ fwd.length = n.forward.length
  next : ∀ j a, a ≠ t.addr → s'.next j a
    = if j < t.height ∧ a = pred s pre j then s.next j t.addr else s.next j a
  level : 0 < s'.currentLevel ∧ s'.currentLevel ≤ s.currentLevel
  dropped : ∀ j, s'.currentLevel ≤ j → j < s.currentLevel → s'.next j s'.head = none

/-- The part of `erase` that takes a node out runs. -/
theorem eraseNode_run (hs : Shape s ts) (hsp : SplitAt key ts pre (t :: post))
    {update : List (Option Nat)}
    (hupd : ∀ j < s.currentLevel, update[j]? = some (some (pred s pre j))) :
    ∃ s', SkipList.eraseNode s update t.addr t.height = .ok s' ∧ Erased s s' pre t := by
  have ht : t ∈ ts := hsp.eq ▸ List.mem_append_right _ List.mem_cons_self
  have hheight := hs.height t ht
  have hlevel := hs.level
  obtain ⟨s₁, hrun, hrel, hnext⟩ := unlink_spec t.height 0 s (fun j _ hj => by
    have hj' : j < t.height := by omega
    exact ⟨hupd j (by omega), hs.readable_pred hsp (by omega),
      next_pred_of_tower hs hsp.eq ht hj', hs.readable_tower ht hj'⟩)
  obtain ⟨hnode, hn, hlen⟩ := hs.head
  have hhead : s.head ≠ t.addr := by
    intro heq
    exact (List.nodup_cons.mp hs.nodup).1 (heq ▸ List.mem_map_of_mem ht)
  obtain ⟨s₂, hs₂⟩ : ∃ s₂ : SkipList K V, s₂ = SkipList.delete s₁ t.addr := ⟨_, rfl⟩
  have hkeep : ∀ a, a ≠ t.addr → s₂.nodes a = s₁.nodes a := by
    intro a ha
    rw [hs₂]
    exact if_neg ha
  have hnext₂ : ∀ j a, a ≠ t.addr → s₂.next j a = s₁.next j a := by
    intro j a ha
    simp only [SkipList.next, hkeep a ha]
  have hfields : s₂.head = s.head ∧ s₂.maxLevel = s.maxLevel ∧ s₂.fresh = s.fresh
      ∧ s₂.nodeCount = s.nodeCount ∧ s₂.currentLevel = s.currentLevel := by
    rw [hs₂]
    exact ⟨hrel.head, hrel.maxLevel, hrel.fresh, hrel.nodeCount, hrel.currentLevel⟩
  obtain ⟨level', hdrop, hpos, hle, hnone⟩ := dropLevels_spec s₂ s.currentLevel (fun j hj => by
    obtain ⟨fwd, hn₁, hlen₁⟩ := hrel.nodes s.head hnode hn
    refine ⟨⟨hnode.key, hnode.value, fwd⟩, ?_, ?_⟩
    · rw [hfields.1, hkeep _ hhead]
      exact hn₁
    · show j < fwd.length
      omega)
  refine ⟨{ s₂ with currentLevel := level', nodeCount := s₂.nodeCount - 1 }, ?_, ?_⟩
  · simp only [SkipList.eraseNode, hrun, ok_bind, ← hs₂, hfields.2.2.2.2, hdrop]
    rfl
  · refine
      { head := hfields.1
        maxLevel := hfields.2.1
        fresh := hfields.2.2.1
        nodeCount := congrArg (· - 1) hfields.2.2.2.1
        nodes := ?_
        next := ?_
        level := ⟨hpos hlevel.1, hle⟩
        dropped := hnone }
    · intro a n ha hna
      obtain ⟨fwd, hfwd, hflen⟩ := hrel.nodes a n hna
      exact ⟨fwd, (hkeep a ha).trans hfwd, hflen⟩
    · intro j a ha
      refine (hnext₂ j a ha).trans ?_
      rw [hnext]
      simp only [Nat.zero_le, true_and, Nat.zero_add]

/-- **The chain of each level**, the tower left out of those it stood on. -/
theorem Erased.linked (hs : Shape s ts) (heq : ts = pre ++ t :: post) {s' : SkipList K V}
    (he : Erased s s' pre t) {j : Nat} (hj : j < s.maxLevel) :
    Linked (s'.next j) s'.head (levelAddrs j (pre ++ post)) := by
  obtain ⟨hgone, hnodup⟩ := List.nodup_cons.mp (nodup_addrs hs heq)
  have hlink := hs.linked j hj
  rw [heq, levelAddrs_insert] at hlink
  have hsub : (s.head :: levelAddrs j (pre ++ post)).Sublist
      (s.head :: (pre ++ post).map Tower.addr) :=
    (List.filter_sublist.map _).cons_cons _
  have hmem : ∀ b ∈ s.head :: levelAddrs j (pre ++ post), b ≠ t.addr := by
    rintro b hb rfl
    exact hgone (hsub.subset hb)
  have hnd := hnodup.sublist hsub
  rw [levelAddrs_append] at hmem hnd ⊢
  rw [he.head]
  by_cases hjt : j < t.height
  · rw [if_pos hjt] at hlink
    refine linked_remove hlink hnd ?_ ?_
    · have hpred : pred s pre j ≠ t.addr := by
        refine hmem _ ?_
        rw [← List.cons_append]
        exact List.mem_append_left _ (lastOf_mem _ _)
      exact (he.next j _ hpred).trans (if_pos ⟨hjt, rfl⟩)
    · intro b hb hbp
      exact (he.next j b (hmem b hb)).trans (if_neg fun h => hbp h.2)
  · rw [if_neg hjt, List.nil_append] at hlink
    refine linked_congr ?_ hlink
    intro b hb
    exact (he.next j b (hmem b hb)).trans (if_neg fun h => hjt h.1)

/-- No tower reaches into a level that was dropped, for the head leads nowhere there. -/
theorem Erased.height_le (hs : Shape s ts) (heq : ts = pre ++ t :: post) {s' : SkipList K V}
    (he : Erased s s' pre t) {u : Tower K V} (hu : u ∈ pre ++ post)
    (hheight : u.height ≤ s.currentLevel) : u.height ≤ s'.currentLevel := by
  by_contra hc
  have hreach : s'.currentLevel < u.height := Nat.lt_of_not_le hc
  have hlevel := hs.level
  have hnone := he.dropped s'.currentLevel (Nat.le_refl _) (by omega)
  rw [linked_head (he.linked hs heq (by omega)), List.head?_eq_none_iff] at hnone
  have hmem : u.addr ∈ levelAddrs s'.currentLevel (pre ++ post) :=
    List.mem_map_of_mem (List.mem_filter.mpr ⟨hu, decide_eq_true hreach⟩)
  rw [hnone] at hmem
  cases hmem

/-- **Taking a tower out keeps the shape.** -/
theorem Shape.erased (hs : Shape s ts) (hsp : SplitAt key ts pre (t :: post)) {s' : SkipList K V}
    (he : Erased s s' pre t) : Shape s' (pre ++ post) := by
  have hsub : ∀ u ∈ pre ++ post, u ∈ ts := by
    intro u hu
    rw [hsp.eq]
    rcases List.mem_append.mp hu with h | h
    · exact List.mem_append_left _ h
    · exact List.mem_append_right _ (List.mem_cons_of_mem _ h)
  obtain ⟨hgone, hnodup⟩ := List.nodup_cons.mp (nodup_addrs hs hsp.eq)
  have hne : ∀ a ∈ s.head :: (pre ++ post).map Tower.addr, a ≠ t.addr := by
    rintro a ha rfl
    exact hgone ha
  refine
    { nodup := he.head ▸ hnodup
      bound := ?_
      head := ?_
      node := ?_
      height := ?_
      level := ⟨he.level.1, by have h1 := he.level.2; have h2 := hs.level; have h3 := he.maxLevel; omega⟩
      sorted := ?_
      linked := fun j hj => he.linked hs hsp.eq (he.maxLevel ▸ hj)
      count := ?_ }
  · intro a ha
    rw [he.fresh]
    refine hs.bound a ?_
    rw [hsp.eq, (addrs_perm s.head pre post t).mem_iff]
    exact List.mem_cons_of_mem _ (he.head ▸ ha)
  · obtain ⟨n, hn, hlen⟩ := hs.head
    obtain ⟨fwd, hn', hlen'⟩ := he.nodes s.head n (hne _ List.mem_cons_self) hn
    exact ⟨_, he.head ▸ hn', hlen'.trans (hlen.trans he.maxLevel.symm)⟩
  · intro u hu
    obtain ⟨fwd, hn, hlen⟩ := hs.node u (hsub u hu)
    obtain ⟨fwd', hn', hlen'⟩ := he.nodes u.addr _
      (hne _ (List.mem_cons_of_mem _ (List.mem_map_of_mem hu))) hn
    exact ⟨fwd', hn', hlen'.trans hlen⟩
  · intro u hu
    obtain ⟨hpos, hle⟩ := hs.height u (hsub u hu)
    exact ⟨hpos, he.height_le hs hsp.eq hu hle⟩
  · have hsorted := hs.sorted
    rw [hsp.eq] at hsorted
    exact hsorted.sublist ((List.sublist_cons_self t post).append_left pre)
  · rw [he.nodeCount, hs.count, hsp.eq, List.length_append, List.length_append, List.length_cons]
    omega

/-- Removing the key of one tower from the contents. -/
theorem discard_contents (ht : t.key = key) (hother : ∀ u ∈ pre ++ post, u.key ≠ key) :
    discard key (contents (pre ++ t :: post)) = contents (pre ++ post) := by
  have hkeep : ∀ us : List (Tower K V), (∀ u ∈ us, u.key ≠ key) →
      discard key (contents us) = contents us := by
    intro us hus
    refine List.filter_eq_self.mpr ?_
    intro kv hkv
    obtain ⟨u, hu, rfl⟩ := List.mem_map.mp hkv
    simpa using hus u hu
  have hdrop : discard key (contents (t :: post)) = discard key (contents post) :=
    List.filter_cons_of_neg (by simp [ht])
  calc discard key (contents (pre ++ t :: post))
      = discard key (contents pre) ++ discard key (contents (t :: post)) := by
        rw [contents, List.map_append]
        exact List.filter_append _ _
    _ = contents pre ++ contents post := by
        rw [hdrop, hkeep pre (fun u hu => hother u (List.mem_append_left _ hu)),
          hkeep post (fun u hu => hother u (List.mem_append_right _ hu))]
    _ = contents (pre ++ post) := (List.map_append).symm

/-- **`erase` removes its key**, and says whether it was there. -/
theorem erase_spec (hs : Shape s ts) (key : K) :
    ∃ s' ts', SkipList.erase s key = .ok (s', ((contents ts).lookup key).isSome) ∧ Shape s' ts'
      ∧ contents ts' = discard key (contents ts) ∧ s'.maxLevel = s.maxLevel := by
  obtain ⟨pre, post, hsp⟩ := hs.exists_split key
  obtain ⟨update, hrun, -, hupd, -⟩ := descend_spec hs hsp s.currentLevel
    (List.replicate s.maxLevel none) hs.level.2 List.length_replicate
  rw [hs.pred_above hsp (Nat.le_refl _)] at hrun
  obtain ⟨n, hn, hread⟩ := read_pred_zero hs hsp
  have hlook := lookup_contents hsp hs
  -- without the key nothing changes
  have hsame : (contents ts).lookup key = none →
      contents ts = discard key (contents ts) := fun hnone =>
    (discard_of_lookup_none hs.keySorted hnone).symm
  rw [SkipList.erase, hrun]
  simp only [ok_bind, hn, hread]
  cases post with
  | nil =>
      have hnone : (contents ts).lookup key = none := hlook
      rw [hnone]
      exact ⟨s, ts, rfl, hs, hsame hnone, rfl⟩
  | cons t r =>
      have ht : t ∈ ts := hsp.eq ▸ List.mem_append_right _ List.mem_cons_self
      obtain ⟨fwd, hnode, hflen⟩ := hs.node t ht
      simp only [List.map_cons, List.head?_cons, deref_of_nodes hnode, ok_bind]
      by_cases hk : t.key = key
      · have hsome : (contents ts).lookup key = some t.value := by
          rw [hlook]
          exact if_pos hk
        obtain ⟨s', hrun', he⟩ := eraseNode_run hs hsp hupd
        refine ⟨s', pre ++ r, ?_, Shape.erased hs hsp he, ?_, he.maxLevel⟩
        · rw [if_pos hk, hflen, hrun', hsome]
          rfl
        · have hsorted := hs.sorted
          rw [hsp.eq] at hsorted ⊢
          obtain ⟨-, hr, -⟩ := List.pairwise_append.mp hsorted
          refine (discard_contents hk ?_).symm
          intro u hu
          rcases List.mem_append.mp hu with hu' | hu'
          · exact (hsp.below u hu').ne
          · exact hk ▸ ((List.pairwise_cons.mp hr).1 u hu').ne'
      · have hnone : (contents ts).lookup key = none := by
          rw [hlook]
          exact if_neg hk
        rw [if_neg hk, hnone]
        exact ⟨s, ts, rfl, hs, hsame hnone, rfl⟩

end Erase

/-! ## The heights that are drawn -/

/-- The heights of the next `n` insertions. -/
def drawnHeights (maxLevel : Nat) : Nat → (Nat → Bool) → List Nat
  | 0, _ => []
  | n + 1, draws =>
      (randomLevelLoop maxLevel maxLevel 1 draws).1
        :: drawnHeights maxLevel n (randomLevelLoop maxLevel maxLevel 1 draws).2

/-- One more draw, in front of some others. -/
def drawFirst (b : Bool) (draws : Nat → Bool) (j : Nat) : Bool :=
  if j = 0 then b else draws (j - 1)

/-- One more level for each draw below `0.5`. -/
theorem exists_draws_level {maxLevel : Nat} (rest : Nat → Bool) :
    ∀ (n fuel level : Nat), n < fuel → level + n ≤ maxLevel →
      ∃ draws, randomLevelLoop maxLevel fuel level draws = (level + n, rest) := by
  intro n
  induction n with
  | zero =>
      intro fuel level hfuel _
      obtain ⟨fuel, rfl⟩ := Nat.exists_eq_succ_of_ne_zero (Nat.pos_iff_ne_zero.mp hfuel)
      refine ⟨drawFirst false rest, ?_⟩
      rw [randomLevelLoop, if_neg (fun h => Bool.false_ne_true h.1)]
      rfl
  | succ n ih =>
      intro fuel level hfuel hle
      obtain ⟨fuel, rfl⟩ := Nat.exists_eq_succ_of_ne_zero (Nat.pos_iff_ne_zero.mp (Nat.zero_lt_of_lt hfuel))
      obtain ⟨draws, hdraws⟩ := ih fuel (level + 1) (by omega) (by omega)
      refine ⟨drawFirst true draws, ?_⟩
      rw [randomLevelLoop, if_pos ⟨rfl, by omega⟩]
      refine hdraws.trans ?_
      rw [Nat.add_assoc, Nat.add_comm 1 n]

/-- **Every sequence of heights** between one and `max_level` is drawn by some
    run of the random numbers. -/
theorem exists_draws {maxLevel : Nat} :
    ∀ heights : List Nat, (∀ h ∈ heights, 1 ≤ h ∧ h ≤ maxLevel) →
      ∃ draws, drawnHeights maxLevel heights.length draws = heights := by
  intro heights
  induction heights with
  | nil => exact fun _ => ⟨fun _ => false, rfl⟩
  | cons h heights ih =>
      intro hall
      obtain ⟨hpos, hle⟩ := hall h List.mem_cons_self
      obtain ⟨rest, hrest⟩ := ih (fun h' hh' => hall h' (List.mem_cons_of_mem _ hh'))
      obtain ⟨draws, hdraws⟩ :=
        @exists_draws_level maxLevel rest (h - 1) maxLevel 1 (by omega) (by omega)
      have heq : 1 + (h - 1) = h := by omega
      refine ⟨draws, ?_⟩
      rw [List.length_cons, drawnHeights, hdraws, hrest, heq]

/-! ## The map of some calls -/

/-- The calls that change the list. -/
inductive Op (K V : Type)
  | put (key : K) (value : V)
  | erase (key : K)
  | clear

/-- What a call does to the list. -/
def perform [LinearOrder K] (s : SkipList K V) : Op K V → Except Fault (SkipList K V)
  | .put key value => s.put key value
  | .erase key => do
      let (s, _) ← SkipList.erase s key
      pure s
  | .clear => s.clear

/-- What a call does to a finite map. -/
def update [DecidableEq K] (m : K → Option V) : Op K V → K → Option V
  | .put key value => Function.update m key (some value)
  | .erase key => Function.update m key none
  | .clear => fun _ => none

/-- Each level is a part of the one below. -/
theorem levelAddrs_sublist (ts : List (Tower K V)) (i : Nat) :
    (levelAddrs (i + 1) ts).Sublist (levelAddrs i ts) := by
  refine (List.monotone_filter_right ts ?_).map Tower.addr
  intro t ht
  have hlt : i + 1 < t.height := of_decide_eq_true ht
  exact decide_eq_true (Nat.lt_of_succ_lt hlt)

section Refinement

variable [LinearOrder K] {s : SkipList K V} {m : K → Option V}

/-- A node is the first one at or above a key, or there is none. -/
def FirstAbove (s : SkipList K V) (m : K → Option V) (key : K) : Option Nat → Prop
  | none => ∀ k, m k ≠ none → k < key
  | some a => ∃ n, s.nodes a = some n ∧ key ≤ n.key ∧ m n.key = some n.value
      ∧ ∀ k, m k ≠ none → key ≤ k → n.key ≤ k

/-- **The list answers as the map**. -/
structure AnswersAs (s : SkipList K V) (m : K → Option V) : Prop where
  get : ∀ key, s.get key = .ok (m key)
  find : ∀ key, ∃ p, s.findGreaterOrEqual key = .ok p ∧ FirstAbove s m key p
  dumpAll : ∃ l, s.dumpAll = .ok l ∧ KeySorted l ∧ (∀ k v, (k, v) ∈ l ↔ m k = some v)
    ∧ s.size = l.length
  erase : ∀ key, ∃ s', SkipList.erase s key = .ok (s', (m key).isSome)

/-- **The representation invariant**: the shape, each level a sublist of the one
    below, and after the descent for any key no pointer of `update` that is null
    on a level that `erase` or, for any new height, `put` goes on to use. -/
structure Represented (s : SkipList K V) : Prop where
  levels : ∃ ts, Shape s ts ∧ ∀ i, (levelAddrs (i + 1) ts).Sublist (levelAddrs i ts)
  updates : ∀ key, ∃ curr update,
    s.descend key s.currentLevel s.head (List.replicate s.maxLevel none) = .ok (curr, update)
      ∧ (∀ i < s.currentLevel, ∃ a, update[i]? = some (some a))
      ∧ ∀ newLevel ≤ s.maxLevel, ∃ update', s.growUpdate newLevel update = .ok update'
          ∧ ∀ i < newLevel, ∃ a, update'[i]? = some (some a)

theorem Represented.of_shape {ts : List (Tower K V)} (hs : Shape s ts) : Represented s := by
  refine ⟨⟨ts, hs, levelAddrs_sublist ts⟩, ?_⟩
  intro key
  obtain ⟨pre, post, hsp⟩ := hs.exists_split key
  obtain ⟨update, hrun, hlen, hupd, -⟩ := descend_spec hs hsp s.currentLevel
    (List.replicate s.maxLevel none) hs.level.2 List.length_replicate
  rw [hs.pred_above hsp (Nat.le_refl _)] at hrun
  refine ⟨_, update, hrun, fun i hi => ⟨_, hupd i hi⟩, ?_⟩
  intro newLevel hnew
  obtain ⟨update', hgrow, hupd'⟩ := update_spec hs hsp hlen hupd hnew
  exact ⟨update', hgrow, fun i hi => ⟨_, hupd' i hi⟩⟩

/-- The list answers as the lookups in its contents. -/
theorem AnswersAs.of_shape {ts : List (Tower K V)} (hs : Shape s ts)
    (hm : ∀ k, (contents ts).lookup k = m k) : AnswersAs s m where
  get key := (get_spec hs key).trans (congrArg Except.ok (hm key))
  find key := by
    obtain ⟨pre, post, hsp⟩ := hs.exists_split key
    have hmem : ∀ k, m k ≠ none → ∃ t ∈ ts, t.key = k := by
      intro k hk
      obtain ⟨v, hv⟩ := Option.ne_none_iff_exists'.mp (hm k ▸ hk)
      obtain ⟨t, ht, heq⟩ := List.mem_map.mp (mem_of_lookup hv)
      exact ⟨t, ht, congrArg Prod.fst heq⟩
    refine ⟨_, findGreaterOrEqual_spec hs hsp, ?_⟩
    cases post with
    | nil =>
        intro k hk
        obtain ⟨t, ht, rfl⟩ := hmem k hk
        rw [hsp.eq, List.append_nil] at ht
        exact hsp.below t ht
    | cons t r =>
        have ht : t ∈ ts := hsp.eq ▸ List.mem_append_right _ List.mem_cons_self
        obtain ⟨fwd, hnode, -⟩ := hs.node t ht
        refine ⟨_, hnode, not_lt.mp (hsp.above t List.mem_cons_self), ?_, ?_⟩
        · rw [← hm, lookup_eq_some_iff hs.keySorted]
          exact List.mem_map_of_mem ht
        · intro k hk hle
          obtain ⟨u, hu, rfl⟩ := hmem k hk
          have hsorted := hs.sorted
          rw [hsp.eq] at hu hsorted
          rcases List.mem_append.mp hu with hu' | hu'
          · exact absurd (hsp.below u hu') (not_lt.mpr hle)
          · rcases List.mem_cons.mp hu' with rfl | hu''
            · exact le_refl _
            · obtain ⟨-, hr, -⟩ := List.pairwise_append.mp hsorted
              exact ((List.pairwise_cons.mp hr).1 u hu'').le
  dumpAll := by
    refine ⟨contents ts, dumpAll_spec hs, hs.keySorted, ?_, ?_⟩
    · intro k v
      rw [← lookup_eq_some_iff hs.keySorted, hm]
    · exact hs.count.trans (List.length_map _).symm
  erase key := by
    obtain ⟨s', -, hrun, -⟩ := erase_spec hs key
    exact ⟨s', hm key ▸ hrun⟩

/-- **One call** keeps the shape, and changes the contents as it changes the map. -/
theorem perform_spec {ts : List (Tower K V)} (hs : Shape s ts)
    (hm : ∀ k, (contents ts).lookup k = m k) (op : Op K V) :
    ∃ s' ts', perform s op = .ok s' ∧ Shape s' ts'
      ∧ ∀ k, (contents ts').lookup k = update m op k := by
  cases op with
  | put key value =>
      obtain ⟨s', ts', hrun, hs', hcont, -⟩ := put_spec hs key value
      refine ⟨s', ts', hrun, hs', ?_⟩
      intro k
      rw [hcont, lookup_upsert, hm]
      exact (Function.update_apply m key (some value) k).symm
  | erase key =>
      obtain ⟨s', ts', hrun, hs', hcont, -⟩ := erase_spec hs key
      refine ⟨s', ts', ?_, hs', ?_⟩
      · simp only [perform, hrun, ok_bind]
        rfl
      · intro k
        rw [hcont, lookup_discard, hm]
        exact (Function.update_apply m key none k).symm
  | clear =>
      obtain ⟨s', hrun, hs', -⟩ := clear_spec hs
      exact ⟨s', [], hrun, hs', fun _ => rfl⟩

/-- Some calls, from any list that stands for a map. -/
theorem foldlM_perform (ops : List (Op K V)) :
    ∀ {s : SkipList K V} {m : K → Option V} {ts : List (Tower K V)}, Shape s ts →
      (∀ k, (contents ts).lookup k = m k) →
      ∃ s' ts', ops.foldlM perform s = .ok s' ∧ Shape s' ts'
        ∧ ∀ k, (contents ts').lookup k = ops.foldl update m k := by
  induction ops with
  | nil => exact fun hs hm => ⟨_, _, rfl, hs, hm⟩
  | cons op ops ih =>
      intro s m ts hs hm
      obtain ⟨s₁, ts₁, hrun, hs₁, hm₁⟩ := perform_spec hs hm op
      obtain ⟨s', ts', hrest, hs', hm'⟩ := ih hs₁ hm₁
      refine ⟨s', ts', ?_, hs', hm'⟩
      rw [List.foldlM_cons, hrun]
      exact hrest

variable [Inhabited K] [Inhabited V]

/-- **The skip list refines a finite map**: after any calls, and whatever heights
    were drawn, it answers as the map does and its representation is sound. -/
theorem skipList_refines_map {maxLevel : Nat} (hmax : 1 ≤ maxLevel) (draws : Nat → Bool)
    (ops : List (Op K V)) :
    ∃ s, ops.foldlM perform (SkipList.empty maxLevel draws) = .ok s
      ∧ AnswersAs s (ops.foldl update (fun _ => none)) ∧ Represented s := by
  obtain ⟨ts, hs, hcont⟩ := models_empty (K := K) (V := V) hmax draws
  obtain ⟨s', ts', hrun, hs', hm'⟩ := foldlM_perform ops hs
    (m := fun _ => none) (fun k => by rw [hcont]; rfl)
  exact ⟨s', hrun, AnswersAs.of_shape hs' hm', Represented.of_shape hs'⟩

end Refinement

/-- Insertions at two heights, an erasure and an overwriting. -/
theorem skipList_refines_map_some :
    ∃ s, [Op.put 3 30, .put 1 10, .erase 3, .put 1 11, .clear, .put 2 20].foldlM perform
        (SkipList.empty (K := Nat) (V := Nat) 2 (fun i => i % 3 = 0)) = .ok s
      ∧ AnswersAs s ([Op.put 3 30, .put 1 10, .erase 3, .put 1 11, .clear, .put 2 20].foldl update
          (fun _ => none)) ∧ Represented s :=
  skipList_refines_map (by decide) _ _

end KvSkipListMap
