import LightKV.KvSkipListMapProofs
import Mathlib.Data.Finset.Card

/-! # The skip list's nodes

    `put` allocates a node, `erase` and `clear` delete nodes, and the destructor
    deletes what is left.  One node is alive for each entry, and one for the head
    (`Balanced`): a step that is seen to run changes the live nodes as it changes
    the count, and a list whose shape is sound has that many nodes on its bottom
    level, so that every live node stands there.

    Result: after any calls no node is leaked, and the destructor deletes each
    node once and leaves none (`nodes_are_owned`). -/

namespace KvSkipListMemory

open KvBytes KvSkipList KvSkipListMap Chain Overlay

variable {K V : Type}

/-! ## The destructor -/

/-- `~SkipList`: `clear`, and the head goes too. -/
def SkipList.destroy (s : SkipList K V) : Except Fault (SkipList K V) := do
  let s ← s.clear
  let _ ← s.deref (some s.head)
  pure (SkipList.delete s s.head)

/-! ## What a run does to the nodes -/

/-- The same nodes are alive, and the counts are the same. -/
structure SameLive (s s' : SkipList K V) : Prop where
  nodes : ∀ a, s'.nodes a = none ↔ s.nodes a = none
  fresh : s'.fresh = s.fresh
  nodeCount : s'.nodeCount = s.nodeCount

variable {s s' : SkipList K V}

theorem SameLive.refl (s : SkipList K V) : SameLive s s := ⟨fun _ => Iff.rfl, rfl, rfl⟩

theorem SameLive.trans {s'' : SkipList K V} (h : SameLive s s') (h' : SameLive s' s'') :
    SameLive s s'' :=
  ⟨fun a => (h'.nodes a).trans (h.nodes a), h'.fresh.trans h.fresh, h'.nodeCount.trans h.nodeCount⟩

/-- A pointer that is followed leads to a live node. -/
theorem nodes_of_deref {a : Nat} {n : SkipListNode K V} (h : s.deref (some a) = .ok n) :
    s.nodes a = some n := by
  rw [SkipList.deref] at h
  cases hn : s.nodes a with
  | none =>
      rw [hn] at h
      cases h
  | some m =>
      rw [hn] at h
      rw [Except.ok.inj h]

/-- Writing to a live node. -/
theorem sameLive_store {a : Nat} (ha : s.nodes a ≠ none) (n : SkipListNode K V) :
    SameLive s (s.store a n) := by
  refine ⟨?_, rfl, rfl⟩
  intro b
  show (if b = a then some n else s.nodes b) = none ↔ s.nodes b = none
  split
  · rename_i hb
    subst hb
    exact ⟨fun h => (by cases h), fun h => absurd h ha⟩
  · exact Iff.rfl

theorem sameLive_setForward {a i : Nat} {p : Option Nat} (h : s.setForward a i p = .ok s') :
    SameLive s s' := by
  obtain ⟨n, hn, h⟩ := bind_eq_ok.mp h
  split at h
  · obtain rfl := Except.ok.inj h
    exact sameLive_store (by rw [nodes_of_deref hn]; exact Option.some_ne_none n) _
  · cases h

/-- The linking loop allocates nothing. -/
theorem sameLive_link {update : List (Option Nat)} {newNode : Nat} :
    ∀ (n i : Nat) {s : SkipList K V}, SkipList.link update newNode n i s = .ok s' →
      SameLive s s' := by
  intro n
  induction n with
  | zero =>
      intro i s h
      obtain rfl := Except.ok.inj h
      exact SameLive.refl s
  | succ n ih =>
      intro i s h
      rw [SkipList.link] at h
      split at h
      · obtain ⟨u, -, h⟩ := bind_eq_ok.mp h
        obtain ⟨un, -, h⟩ := bind_eq_ok.mp h
        obtain ⟨next, -, h⟩ := bind_eq_ok.mp h
        obtain ⟨s₁, h₁, h⟩ := bind_eq_ok.mp h
        obtain ⟨s₂, h₂, h⟩ := bind_eq_ok.mp h
        exact (sameLive_setForward h₁).trans ((sameLive_setForward h₂).trans (ih (i + 1) h))
      · cases h
      · cases h

/-- The unlinking loop deletes nothing. -/
theorem sameLive_unlink {update : List (Option Nat)} {curr : Nat} :
    ∀ (n i : Nat) {s : SkipList K V}, SkipList.unlink update curr n i s = .ok s' →
      SameLive s s' := by
  intro n
  induction n with
  | zero =>
      intro i s h
      obtain rfl := Except.ok.inj h
      exact SameLive.refl s
  | succ n ih =>
      intro i s h
      rw [SkipList.unlink] at h
      split at h
      · obtain ⟨u, -, h⟩ := bind_eq_ok.mp h
        obtain ⟨un, -, h⟩ := bind_eq_ok.mp h
        obtain ⟨next, -, h⟩ := bind_eq_ok.mp h
        split at h
        · obtain ⟨cn, -, h⟩ := bind_eq_ok.mp h
          obtain ⟨behind, -, h⟩ := bind_eq_ok.mp h
          obtain ⟨s₁, h₁, h⟩ := bind_eq_ok.mp h
          exact (sameLive_setForward h₁).trans (ih (i + 1) h)
        · exact ih (i + 1) h
      · cases h
      · cases h

theorem sameLive_resetHead :
    ∀ (n i : Nat) {s : SkipList K V}, SkipList.resetHead n i s = .ok s' → SameLive s s' := by
  intro n
  induction n with
  | zero =>
      intro i s h
      obtain rfl := Except.ok.inj h
      exact SameLive.refl s
  | succ n ih =>
      intro i s h
      obtain ⟨s₁, h₁, h⟩ := bind_eq_ok.mp h
      exact (sameLive_setForward h₁).trans (ih (i + 1) h)

/-- One more node is alive. -/
structure OneMore (s s' : SkipList K V) : Prop where
  nodes : ∀ a, s'.nodes a = none ↔ a ≠ s.fresh ∧ s.nodes a = none
  fresh : s'.fresh = s.fresh + 1
  nodeCount : s'.nodeCount = s.nodeCount + 1

/-- One node is deleted, which was alive. -/
structure OneLess (s s' : SkipList K V) (a : Nat) : Prop where
  alive : s.nodes a ≠ none
  nodes : ∀ b, s'.nodes b = none ↔ b = a ∨ s.nodes b = none
  fresh : s'.fresh = s.fresh
  nodeCount : s'.nodeCount = s.nodeCount - 1

/-- The tail of `put` allocates one node. -/
theorem oneMore_insert {key : K} {value : V} {update : List (Option Nat)}
    (h : s.insert key value update = .ok s') : OneMore s s' := by
  obtain ⟨update', -, h⟩ := bind_eq_ok.mp h
  obtain ⟨s₁, hlink, h⟩ := bind_eq_ok.mp h
  obtain rfl := Except.ok.inj h
  have hsame := sameLive_link _ _ hlink
  refine ⟨?_, hsame.fresh, congrArg (· + 1) hsame.nodeCount⟩
  intro a
  refine (hsame.nodes a).trans ?_
  show (if a = s.fresh then some _ else s.nodes a) = none ↔ _
  split
  · rename_i ha
    exact ⟨fun h => (by cases h), fun h => absurd ha h.1⟩
  · rename_i ha
    exact ⟨fun h => ⟨ha, h⟩, fun h => h.2⟩

section Steps

variable [LinearOrder K]

/-- **`put`** writes to a node, or allocates one. -/
theorem put_nodes {key : K} {value : V} (h : s.put key value = .ok s') :
    SameLive s s' ∨ OneMore s s' := by
  obtain ⟨⟨curr, update⟩, -, h⟩ := bind_eq_ok.mp h
  obtain ⟨node, -, h⟩ := bind_eq_ok.mp h
  obtain ⟨next, -, h⟩ := bind_eq_ok.mp h
  cases next with
  | none => exact Or.inr (oneMore_insert h)
  | some c =>
      obtain ⟨cn, hcn, h⟩ := bind_eq_ok.mp h
      split at h
      · obtain rfl := Except.ok.inj h
        exact Or.inl (sameLive_store (by rw [nodes_of_deref hcn]; exact Option.some_ne_none cn) _)
      · exact Or.inr (oneMore_insert h)

/-- **`erase`** deletes a node exactly when it says so. -/
theorem erase_nodes {key : K} {found : Bool} (h : SkipList.erase s key = .ok (s', found)) :
    found = false ∧ s' = s ∨ found = true ∧ ∃ a, OneLess s s' a := by
  obtain ⟨⟨curr, update⟩, -, h⟩ := bind_eq_ok.mp h
  obtain ⟨node, -, h⟩ := bind_eq_ok.mp h
  obtain ⟨next, -, h⟩ := bind_eq_ok.mp h
  cases next with
  | none =>
      obtain ⟨rfl, rfl⟩ := Prod.mk.inj (Except.ok.inj h)
      exact Or.inl ⟨rfl, rfl⟩
  | some c =>
      obtain ⟨cn, hcn, h⟩ := bind_eq_ok.mp h
      split at h
      · obtain ⟨s₁, hrun, h⟩ := bind_eq_ok.mp h
        obtain ⟨rfl, rfl⟩ := Prod.mk.inj (Except.ok.inj h)
        obtain ⟨s₂, hunlink, hrun⟩ := bind_eq_ok.mp hrun
        obtain ⟨level, -, hrun⟩ := bind_eq_ok.mp hrun
        obtain rfl := Except.ok.inj hrun
        have hsame := sameLive_unlink _ _ hunlink
        refine Or.inr ⟨rfl, c, ?_, ?_, hsame.fresh, congrArg (· - 1) hsame.nodeCount⟩
        · rw [nodes_of_deref hcn]
          exact Option.some_ne_none cn
        · intro b
          show (if b = c then none else s₂.nodes b) = none ↔ _
          split
          · rename_i hb
            exact ⟨fun _ => Or.inl hb, fun _ => rfl⟩
          · rename_i hb
            rw [hsame.nodes]
            exact (or_iff_right hb).symm
      · obtain ⟨rfl, rfl⟩ := Prod.mk.inj (Except.ok.inj h)
        exact Or.inl ⟨rfl, rfl⟩

/-- **`clear`** deletes the nodes of the bottom level. -/
theorem clear_nodes {ts : List (Tower K V)} (hs : Shape s ts) (h : s.clear = .ok s') :
    (∀ a, s'.nodes a = none ↔ a ∈ ts.map Tower.addr ∨ s.nodes a = none)
      ∧ s'.fresh = s.fresh ∧ s'.nodeCount = 0 := by
  obtain ⟨hnode, hderef, hread⟩ := hs.read_head
  rw [SkipList.clear] at h
  simp only [hderef, ok_bind, hread, free_all hs] at h
  obtain ⟨s₁, hreset, h⟩ := bind_eq_ok.mp h
  obtain rfl := Except.ok.inj h
  have hsame := sameLive_resetHead _ _ hreset
  refine ⟨?_, hsame.fresh, rfl⟩
  intro a
  refine (hsame.nodes a).trans ?_
  show (if a ∈ ts.map Tower.addr then none else s.nodes a) = none ↔ _
  split
  · rename_i ha
    exact ⟨fun _ => Or.inl ha, fun _ => rfl⟩
  · rename_i ha
    exact (or_iff_right ha).symm

end Steps

/-! ## As many nodes as entries -/

/-- The addresses of the live nodes. -/
def live (s : SkipList K V) : Finset Nat :=
  (Finset.range s.fresh).filter (fun a => (s.nodes a).isSome)

/-- **Every live node was allocated, and there is one for each entry and the head.** -/
structure Balanced (s : SkipList K V) : Prop where
  allocated : ∀ a, s.nodes a ≠ none → a < s.fresh
  card : (live s).card = s.nodeCount + 1

theorem mem_live (h : Balanced s) (a : Nat) : a ∈ live s ↔ s.nodes a ≠ none := by
  rw [live, Finset.mem_filter, Finset.mem_range, Option.isSome_iff_ne_none]
  exact ⟨And.right, fun ha => ⟨h.allocated a ha, ha⟩⟩

theorem Balanced.of_sameLive (h : Balanced s) (hs : SameLive s s') : Balanced s' := by
  have hlive : live s' = live s := by
    ext a
    rw [live, live, Finset.mem_filter, Finset.mem_filter, hs.fresh, Option.isSome_iff_ne_none,
      Option.isSome_iff_ne_none, Ne, hs.nodes]
  refine ⟨?_, by rw [hlive, h.card, hs.nodeCount]⟩
  intro a ha
  rw [hs.fresh]
  exact h.allocated a (fun hn => ha ((hs.nodes a).mpr hn))

theorem Balanced.of_oneMore (h : Balanced s) (hs : OneMore s s') : Balanced s' := by
  have halloc : ∀ a, s'.nodes a ≠ none → a = s.fresh ∨ s.nodes a ≠ none := by
    intro a ha
    by_contra hc
    obtain ⟨h1, h2⟩ := not_or.mp hc
    exact ha ((hs.nodes a).mpr ⟨h1, not_not.mp h2⟩)
  have hlive : live s' = insert s.fresh (live s) := by
    ext a
    rw [Finset.mem_insert, mem_live h, live, Finset.mem_filter, Finset.mem_range, hs.fresh,
      Option.isSome_iff_ne_none]
    constructor
    · rintro ⟨-, ha⟩
      exact halloc a ha
    · intro ha
      refine ⟨?_, fun hn => ?_⟩
      · rcases ha with rfl | ha
        · exact Nat.lt_succ_self _
        · exact Nat.lt_succ_of_lt (h.allocated a ha)
      · obtain ⟨h1, h2⟩ := (hs.nodes a).mp hn
        exact ha.elim h1 (fun ha => ha h2)
  refine ⟨?_, ?_⟩
  · intro a ha
    rw [hs.fresh]
    rcases halloc a ha with rfl | ha
    · exact Nat.lt_succ_self _
    · exact Nat.lt_succ_of_lt (h.allocated a ha)
  · have hnew : s.fresh ∉ live s := by
      rw [live, Finset.mem_filter, Finset.mem_range]
      exact fun hc => Nat.lt_irrefl _ hc.1
    rw [hlive, Finset.card_insert_of_notMem hnew, h.card, hs.nodeCount]

theorem Balanced.of_oneLess (h : Balanced s) {a : Nat} (hs : OneLess s s' a)
    (hpos : 0 < s.nodeCount) : Balanced s' := by
  have halloc : ∀ b, s'.nodes b ≠ none → b ≠ a ∧ s.nodes b ≠ none := by
    intro b hb
    exact not_or.mp (fun hc => hb ((hs.nodes b).mpr hc))
  have hlive : live s' = (live s).erase a := by
    ext b
    rw [Finset.mem_erase, mem_live h, live, Finset.mem_filter, Finset.mem_range, hs.fresh,
      Option.isSome_iff_ne_none]
    constructor
    · rintro ⟨-, hb⟩
      exact halloc b hb
    · rintro ⟨hba, hb⟩
      exact ⟨h.allocated b hb, fun hn => ((hs.nodes b).mp hn).elim hba hb⟩
  refine ⟨?_, ?_⟩
  · intro b hb
    rw [hs.fresh]
    exact h.allocated b (halloc b hb).2
  · rw [hlive, Finset.card_erase_of_mem ((mem_live h a).mpr hs.alive), h.card, hs.nodeCount]
    omega

section Owned

variable [LinearOrder K] {ts : List (Tower K V)}

/-- **Every live node is the head or stands on the bottom level.** -/
theorem Balanced.nodes_iff (h : Balanced s) (hs : Shape s ts) (a : Nat) :
    s.nodes a ≠ none ↔ a ∈ s.head :: ts.map Tower.addr := by
  have hsub : (s.head :: ts.map Tower.addr).toFinset ⊆ live s := by
    intro b hb
    rw [List.mem_toFinset] at hb
    rw [mem_live h]
    rcases List.mem_cons.mp hb with rfl | hb'
    · obtain ⟨n, hn, -⟩ := hs.head
      rw [hn]
      exact Option.some_ne_none n
    · obtain ⟨t, ht, rfl⟩ := List.mem_map.mp hb'
      obtain ⟨fwd, hn, -⟩ := hs.node t ht
      rw [hn]
      exact Option.some_ne_none _
  have hcard : (s.head :: ts.map Tower.addr).toFinset.card = (live s).card := by
    rw [List.toFinset_card_of_nodup hs.nodup, h.card, hs.count, List.length_cons, List.length_map]
  have heq := Finset.eq_of_subset_of_card_le hsub (Nat.le_of_eq hcard.symm)
  rw [← mem_live h, ← heq, List.mem_toFinset]

theorem Balanced.clear (h : Balanced s) (hs : Shape s ts) (hrun : s.clear = .ok s') :
    Balanced s' := by
  obtain ⟨hnodes, hfresh, hcount⟩ := clear_nodes hs hrun
  have hhead : s.head ∉ ts.map Tower.addr := (List.nodup_cons.mp hs.nodup).1
  have hleft : ∀ a, s'.nodes a ≠ none ↔ a = s.head := by
    intro a
    rw [Ne, hnodes, not_or, ← Ne, h.nodes_iff hs, List.mem_cons]
    constructor
    · rintro ⟨hno, ha | ha⟩
      · exact ha
      · exact absurd ha hno
    · rintro rfl
      exact ⟨hhead, Or.inl rfl⟩
  have hbound : s.head < s.fresh := hs.bound _ List.mem_cons_self
  have hlive : live s' = {s.head} := by
    ext a
    rw [Finset.mem_singleton, live, Finset.mem_filter, Finset.mem_range, hfresh,
      Option.isSome_iff_ne_none, hleft]
    constructor
    · exact And.right
    · rintro rfl
      exact ⟨hbound, rfl⟩
  refine ⟨?_, by rw [hlive, hcount, Finset.card_singleton]⟩
  intro a ha
  rw [hfresh, (hleft a).mp ha]
  exact hbound

/-- **One call** keeps the balance. -/
theorem balanced_step (h : Balanced s) (hs : Shape s ts) (op : Op K V)
    (hrun : perform s op = .ok s') : Balanced s' := by
  cases op with
  | put key value =>
      rcases put_nodes hrun with hsame | hmore
      · exact h.of_sameLive hsame
      · exact h.of_oneMore hmore
  | erase key =>
      obtain ⟨⟨s₁, found⟩, herase, hrun⟩ := bind_eq_ok.mp hrun
      obtain rfl := Except.ok.inj hrun
      rcases erase_nodes herase with ⟨-, rfl⟩ | ⟨hfound, a, hless⟩
      · exact h
      · refine h.of_oneLess hless ?_
        -- a key that is found stands on the bottom level
        obtain ⟨s₂, ts₂, hspec, -⟩ := erase_spec hs key
        rw [herase, Except.ok.injEq, Prod.mk.injEq, hfound] at hspec
        rw [hs.count]
        refine List.length_pos_iff.mpr ?_
        rintro rfl
        cases hspec.2
  | clear => exact h.clear hs hrun

/-- **Some calls** keep the balance. -/
theorem balanced_run (ops : List (Op K V)) :
    ∀ {s : SkipList K V} {ts : List (Tower K V)}, Shape s ts → Balanced s →
      ∃ s' ts', ops.foldlM perform s = .ok s' ∧ Shape s' ts' ∧ Balanced s' := by
  induction ops with
  | nil => exact fun hs h => ⟨_, _, rfl, hs, h⟩
  | cons op ops ih =>
      intro s ts hs h
      obtain ⟨s₁, ts₁, hrun, hs₁, -⟩ := perform_spec hs (fun _ => rfl) op
      obtain ⟨s', ts', hrest, hs', h'⟩ := ih hs₁ (balanced_step h hs op hrun)
      refine ⟨s', ts', ?_, hs', h'⟩
      rw [List.foldlM_cons, hrun]
      exact hrest

/-- **The destructor** finds every node alive that it deletes, and leaves none. -/
theorem destroy_spec (h : Balanced s) (hs : Shape s ts) :
    ∃ s', SkipList.destroy s = .ok s' ∧ ∀ a, s'.nodes a = none := by
  obtain ⟨s₁, hrun, hs₁, -⟩ := clear_spec hs
  obtain ⟨n, hn, -⟩ := hs₁.head
  refine ⟨SkipList.delete s₁ s₁.head, ?_, ?_⟩
  · simp only [SkipList.destroy, hrun, ok_bind, deref_of_nodes hn]
    rfl
  · intro a
    show (if a = s₁.head then none else s₁.nodes a) = none
    split
    · rfl
    · rename_i ha
      by_contra hne
      have hmem := ((h.clear hs hrun).nodes_iff hs₁ a).mp hne
      exact ha (List.mem_singleton.mp hmem)

variable [Inhabited K] [Inhabited V]

/-- **The skip list owns its nodes**: after any calls, and whatever heights were
    drawn, the live nodes are the head and those of the bottom level, one for each
    entry, and the destructor deletes each of them once and leaves none. -/
theorem nodes_are_owned {maxLevel : Nat} (hmax : 1 ≤ maxLevel) (draws : Nat → Bool)
    (ops : List (Op K V)) :
    ∃ s as, ops.foldlM perform (SkipList.empty maxLevel draws) = .ok s
      ∧ Linked (s.next 0) s.head as ∧ (s.head :: as).Nodup ∧ as.length = s.size
      ∧ (∀ a, s.nodes a ≠ none ↔ a ∈ s.head :: as)
      ∧ ∃ s', SkipList.destroy s = .ok s' ∧ ∀ a, s'.nodes a = none := by
  obtain ⟨ts, hs, -⟩ := models_empty (K := K) (V := V) hmax draws
  have hempty : Balanced (SkipList.empty (K := K) (V := V) maxLevel draws) := by
    refine ⟨?_, rfl⟩
    intro a ha
    by_contra hc
    refine ha (if_neg ?_)
    rintro rfl
    exact hc Nat.one_pos
  obtain ⟨s, ts', hrun, hs', h⟩ := balanced_run ops hs hempty
  exact ⟨s, ts'.map Tower.addr, hrun, hs'.linked_zero, hs'.nodup,
    (List.length_map _).trans hs'.count.symm, h.nodes_iff hs', destroy_spec h hs'⟩

end Owned

/-- Insertions at two heights, an erasure and a list that is cleared. -/
theorem nodes_are_owned_some :
    ∃ s as, [Op.put 3 30, .put 1 10, .erase 3, .put 1 11, .clear, .put 2 20].foldlM perform
        (SkipList.empty (K := Nat) (V := Nat) 2 (fun i => i % 3 = 0)) = .ok s
      ∧ Linked (s.next 0) s.head as ∧ (s.head :: as).Nodup ∧ as.length = s.size
      ∧ (∀ a, s.nodes a ≠ none ↔ a ∈ s.head :: as)
      ∧ ∃ s', SkipList.destroy s = .ok s' ∧ ∀ a, s'.nodes a = none :=
  nodes_are_owned (by decide) _ _

end KvSkipListMemory
