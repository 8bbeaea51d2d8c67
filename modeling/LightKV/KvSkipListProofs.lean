import LightKV.KvBytesProofs
import LightKV.ChainProofs
import LightKV.OverlayProofs
import Mathlib.Data.List.Perm.Subperm

/-! # The skip list

    `SkipList<K, V>` is a memory of nodes, each with its tower of `forward`
    pointers.  The first part of the file is the code of `skip_list.h`: the
    descent with its `update` vector, insertion at a random level, `clear`,
    and the walks along the bottom level.  The second part is the shape the
    code keeps: one list of towers, ascending by key, whose restriction to the
    towers higher than `i` is the chain of level `i`.

    Results: every operation runs without following a null pointer, and on the
    contents of the list `put` is `upsert`, `get` is a lookup,
    `findGreaterOrEqual` is the first entry at or above its key, and `dumpAll`
    is the contents themselves, whatever heights `randomLevel` draws. -/

namespace KvSkipList

open KvBytes Chain Overlay

variable {K V : Type}

/-! ## The code -/

/-- `SkipListNode<K, V>`; a null pointer is `none`. -/
structure SkipListNode (K V : Type) where
  key : K
  value : V
  forward : List (Option Nat)

/-- `SkipList<K, V>`: the nodes by address, the fields of the class, the next
    address `new` hands out, and the draws of `dis(gen)` still to come
    (`true` for a draw below `0.5`). -/
structure SkipList (K V : Type) where
  nodes : Nat → Option (SkipListNode K V)
  head : Nat
  maxLevel : Nat
  currentLevel : Nat
  nodeCount : Nat
  fresh : Nat
  draws : Nat → Bool

/-- Follow a pointer. -/
def SkipList.deref (s : SkipList K V) : Option Nat → Except Fault (SkipListNode K V)
  | none => .error .nullPointer
  | some a =>
      match s.nodes a with
      | none => .error .nullPointer
      | some n => .ok n

/-- `node->forward[i]`. -/
def SkipListNode.forwardAt (n : SkipListNode K V) (i : Nat) : Except Fault (Option Nat) :=
  match n.forward[i]? with
  | none => .error .outOfBounds
  | some p => .ok p

/-- `*a = n`. -/
def SkipList.store (s : SkipList K V) (a : Nat) (n : SkipListNode K V) : SkipList K V :=
  { s with nodes := fun b => if b = a then some n else s.nodes b }

/-- `a->forward[i] = p`. -/
def SkipList.setForward (s : SkipList K V) (a i : Nat) (p : Option Nat) :
    Except Fault (SkipList K V) := do
  let n ← s.deref (some a)
  if i < n.forward.length then pure (s.store a { n with forward := n.forward.set i p })
  else .error .outOfBounds

/-- `update[i] = p`. -/
def setUpdate (update : List (Option Nat)) (i : Nat) (p : Option Nat) :
    Except Fault (List (Option Nat)) :=
  if i < update.length then .ok (update.set i p) else .error .outOfBounds

/-- The constructor: a head node without data, all of its pointers null. -/
def SkipList.empty [Inhabited K] [Inhabited V] (maxLevel : Nat) (draws : Nat → Bool) :
    SkipList K V where
  nodes := fun a => if a = 0 then some ⟨default, default, List.replicate maxLevel none⟩ else none
  head := 0
  maxLevel := maxLevel
  currentLevel := 1
  nodeCount := 0
  fresh := 1
  draws := draws

/-- The loop of `random_level`; one draw is used up by every test. -/
def randomLevelLoop (maxLevel : Nat) : Nat → Nat → (Nat → Bool) → Nat × (Nat → Bool)
  | 0, lvl, draws => (lvl, fun j => draws (j + 1))
  | fuel + 1, lvl, draws =>
      if draws 0 = true ∧ lvl < maxLevel then
        randomLevelLoop maxLevel fuel (lvl + 1) (fun j => draws (j + 1))
      else (lvl, fun j => draws (j + 1))

/-- `random_level`. -/
def SkipList.randomLevel (s : SkipList K V) : Nat × (Nat → Bool) :=
  randomLevelLoop s.maxLevel s.maxLevel 1 s.draws

/-- `size`. -/
def SkipList.size (s : SkipList K V) : Nat := s.nodeCount

section Search

variable [LinearOrder K]

/-- The inner loop of the descent: move right on level `i` while the next key
    is below `key`. -/
def SkipList.advance (s : SkipList K V) (key : K) (i : Nat) : Nat → Nat → Except Fault Nat
  | 0, _ => .error .noProgress
  | fuel + 1, curr => do
      let node ← s.deref (some curr)
      let next ← node.forwardAt i
      match next with
      | none => pure curr
      | some n => do
          let nn ← s.deref (some n)
          if nn.key < key then s.advance key i fuel n else pure curr

/-- The descent of `put`, from level `i - 1` down, filling `update`. -/
def SkipList.descend (s : SkipList K V) (key : K) :
    Nat → Nat → List (Option Nat) → Except Fault (Nat × List (Option Nat))
  | 0, curr, update => pure (curr, update)
  | i + 1, curr, update => do
      let curr ← s.advance key i (s.fresh + 1) curr
      let update ← setUpdate update i (some curr)
      s.descend key i curr update

/-- The descent of `get`. -/
def SkipList.search (s : SkipList K V) (key : K) : Nat → Nat → Except Fault Nat
  | 0, curr => pure curr
  | i + 1, curr => do
      let curr ← s.advance key i (s.fresh + 1) curr
      s.search key i curr

/-- `for (i = current_level; i < new_level; ++i) update[i] = head`. -/
def fillHead (head : Nat) : Nat → Nat → List (Option Nat) → Except Fault (List (Option Nat))
  | 0, _, update => pure update
  | n + 1, i, update => do
      let update ← setUpdate update i (some head)
      fillHead head n (i + 1) update

/-- `if (new_level > current_level)`: the levels the list gains start from the
    head. -/
def SkipList.growUpdate (s : SkipList K V) (newLevel : Nat) (update : List (Option Nat)) :
    Except Fault (List (Option Nat)) :=
  if newLevel > s.currentLevel then
    fillHead s.head (newLevel - s.currentLevel) s.currentLevel update
  else pure update

/-- The linking loop of `put`, for `n` levels from level `i` up. -/
def SkipList.link (update : List (Option Nat)) (newNode : Nat) :
    Nat → Nat → SkipList K V → Except Fault (SkipList K V)
  | 0, _, s => pure s
  | n + 1, i, s => do
      let u ← match update[i]? with
        | some (some a) => pure a
        | some none => .error .nullPointer
        | none => .error .outOfBounds
      let un ← s.deref (some u)
      let next ← un.forwardAt i
      let s ← s.setForward newNode i next
      let s ← s.setForward u i (some newNode)
      SkipList.link update newNode n (i + 1) s

/-- The tail of `put`, when the key is not there yet. -/
def SkipList.insert (s : SkipList K V) (key : K) (value : V) (update : List (Option Nat)) :
    Except Fault (SkipList K V) := do
  let (newLevel, draws) := s.randomLevel
  let update ← s.growUpdate newLevel update
  let currentLevel := if newLevel > s.currentLevel then newLevel else s.currentLevel
  let newNode := s.fresh
  let s := { s with draws := draws, currentLevel := currentLevel, fresh := s.fresh + 1 }
  let s := s.store newNode ⟨key, value, List.replicate newLevel none⟩
  let s ← SkipList.link update newNode newLevel 0 s
  pure { s with nodeCount := s.nodeCount + 1 }

/-- `put`. -/
def SkipList.put (s : SkipList K V) (key : K) (value : V) : Except Fault (SkipList K V) := do
  let (curr, update) ← s.descend key s.currentLevel s.head (List.replicate s.maxLevel none)
  let node ← s.deref (some curr)
  let next ← node.forwardAt 0
  match next with
  | none => s.insert key value update
  | some c => do
      let cn ← s.deref (some c)
      if cn.key = key then pure (s.store c { cn with value := value })
      else s.insert key value update

/-- `get`. -/
def SkipList.get (s : SkipList K V) (key : K) : Except Fault (Option V) := do
  let curr ← s.search key s.currentLevel s.head
  let node ← s.deref (some curr)
  let next ← node.forwardAt 0
  match next with
  | none => pure none
  | some c => do
      let cn ← s.deref (some c)
      if cn.key = key then pure (some cn.value) else pure none

/-- The loop of `find_greater_or_equal`; `level` counts the levels left. -/
def SkipList.findLoop (s : SkipList K V) (key : K) : Nat → Nat → Nat → Except Fault Nat
  | _, x, 0 => pure x
  | 0, _, _ + 1 => .error .noProgress
  | fuel + 1, x, level + 1 => do
      let node ← s.deref (some x)
      let next ← node.forwardAt level
      match next with
      | none => s.findLoop key fuel x level
      | some n => do
          let nn ← s.deref (some n)
          if nn.key < key then s.findLoop key fuel n (level + 1)
          else s.findLoop key fuel x level

/-- `find_greater_or_equal`. -/
def SkipList.findGreaterOrEqual (s : SkipList K V) (key : K) : Except Fault (Option Nat) := do
  let x ← s.findLoop key (s.currentLevel * (s.fresh + 1)) s.head s.currentLevel
  let node ← s.deref (some x)
  node.forwardAt 0

end Search

/-- The walk along the bottom level from `curr`. -/
def SkipList.walk (s : SkipList K V) : Nat → Option Nat → Except Fault (List (K × V))
  | _, none => pure []
  | 0, some _ => .error .noProgress
  | fuel + 1, some a => do
      let n ← s.deref (some a)
      let next ← n.forwardAt 0
      let rest ← s.walk fuel next
      pure ((n.key, n.value) :: rest)

/-- `dump_all`. -/
def SkipList.dumpAll (s : SkipList K V) : Except Fault (List (K × V)) := do
  let h ← s.deref (some s.head)
  let first ← h.forwardAt 0
  s.walk s.fresh first

/-- The deleting loop of `clear`. -/
def SkipList.free : Nat → SkipList K V → Option Nat → Except Fault (SkipList K V)
  | _, s, none => pure s
  | 0, _, some _ => .error .noProgress
  | fuel + 1, s, some a => do
      let n ← s.deref (some a)
      let next ← n.forwardAt 0
      SkipList.free fuel { s with nodes := fun b => if b = a then none else s.nodes b } next

/-- `for (i = 0; i < max_level; ++i) head->forward[i] = nullptr`. -/
def SkipList.resetHead : Nat → Nat → SkipList K V → Except Fault (SkipList K V)
  | 0, _, s => pure s
  | n + 1, i, s => do
      let s ← s.setForward s.head i none
      SkipList.resetHead n (i + 1) s

/-- `clear`. -/
def SkipList.clear (s : SkipList K V) : Except Fault (SkipList K V) := do
  let h ← s.deref (some s.head)
  let first ← h.forwardAt 0
  let s ← SkipList.free s.fresh s first
  let s ← SkipList.resetHead s.maxLevel 0 s
  pure { s with currentLevel := 1, nodeCount := 0 }

/-! ## The shape -/

/-- A node of the list with the height of its tower. -/
structure Tower (K V : Type) where
  addr : Nat
  key : K
  value : V
  height : Nat

/-- The successor of a node on level `i`. -/
def SkipList.next (s : SkipList K V) (i a : Nat) : Option Nat :=
  match s.nodes a with
  | none => none
  | some n => (n.forward[i]?).getD none

/-- The addresses of the towers that reach above level `i`. -/
def levelAddrs (i : Nat) (ts : List (Tower K V)) : List Nat :=
  (ts.filter (fun t => i < t.height)).map Tower.addr

/-- **The representation invariant.**  The towers stand in one list with
    strictly ascending keys; level `i` is the chain of those higher than `i`,
    so each level is a sublist of the one below. -/
structure Shape [LinearOrder K] (s : SkipList K V) (ts : List (Tower K V)) : Prop where
  nodup : (s.head :: ts.map Tower.addr).Nodup
  bound : ∀ a ∈ s.head :: ts.map Tower.addr, a < s.fresh
  head : ∃ n, s.nodes s.head = some n ∧ n.forward.length = s.maxLevel
  node : ∀ t ∈ ts, ∃ fwd, s.nodes t.addr = some ⟨t.key, t.value, fwd⟩ ∧ fwd.length = t.height
  height : ∀ t ∈ ts, 0 < t.height ∧ t.height ≤ s.currentLevel
  level : 0 < s.currentLevel ∧ s.currentLevel ≤ s.maxLevel
  sorted : ts.Pairwise (fun t u => t.key < u.key)
  linked : ∀ i < s.maxLevel, Linked (s.next i) s.head (levelAddrs i ts)
  count : s.nodeCount = ts.length

/-- The entries the towers hold. -/
def contents (ts : List (Tower K V)) : List (K × V) := ts.map (fun t => (t.key, t.value))

/-- A node whose tower reaches level `i`. -/
def Readable (s : SkipList K V) (a i : Nat) : Prop :=
  ∃ n, s.nodes a = some n ∧ i < n.forward.length

theorem deref_of_nodes {s : SkipList K V} {a : Nat} {n : SkipListNode K V}
    (h : s.nodes a = some n) : s.deref (some a) = .ok n := by
  simp only [SkipList.deref, h]

/-- Reading a pointer that is there. -/
theorem forwardAt_eq_next {s : SkipList K V} {a i : Nat} {n : SkipListNode K V}
    (hn : s.nodes a = some n) (hi : i < n.forward.length) :
    n.forwardAt i = .ok (s.next i a) := by
  simp only [SkipListNode.forwardAt, SkipList.next, hn, List.getElem?_eq_getElem hi,
    Option.getD_some]

theorem mem_level {i : Nat} {t : Tower K V} {l : List (Tower K V)}
    (h : t ∈ l.filter (fun t => i < t.height)) : t ∈ l ∧ i < t.height := by
  obtain ⟨h1, h2⟩ := List.mem_filter.mp h
  exact ⟨h1, by simpa using h2⟩

/-- The towers of a level that reach the next one are the next level's. -/
theorem filter_level (l : List (Tower K V)) (i : Nat) :
    (l.filter (fun t => i < t.height)).filter (fun t => i + 1 < t.height)
      = l.filter (fun t => i + 1 < t.height) := by
  rw [List.filter_filter]
  apply List.filter_congr
  intro t _
  by_cases h : i + 1 < t.height
  · have : i < t.height := by omega
    simp [h, this]
  · simp [h]

theorem levelAddrs_append (i : Nat) (us vs : List (Tower K V)) :
    levelAddrs i (us ++ vs) = levelAddrs i us ++ levelAddrs i vs := by
  simp [levelAddrs]

/-- The head and some towers, one of them first. -/
theorem addrs_perm (head : Nat) (pre post : List (Tower K V)) (t : Tower K V) :
    (head :: (pre ++ t :: post).map Tower.addr).Perm
      (t.addr :: head :: (pre ++ post).map Tower.addr) := by
  rw [List.map_append, List.map_append, List.map_cons]
  exact (List.perm_middle.cons _).trans (List.Perm.swap _ _ _)

/-- All towers stand on the bottom level. -/
theorem levelAddrs_zero {us : List (Tower K V)} (h : ∀ t ∈ us, 0 < t.height) :
    levelAddrs 0 us = us.map Tower.addr := by
  rw [levelAddrs, List.filter_eq_self.mpr]
  intro t ht
  simpa using h t ht

section Reads

variable [LinearOrder K] {s : SkipList K V} {ts : List (Tower K V)}

theorem Shape.readable_head (hs : Shape s ts) {i : Nat} (hi : i < s.maxLevel) :
    Readable s s.head i := by
  obtain ⟨n, hn, hlen⟩ := hs.head
  exact ⟨n, hn, hlen ▸ hi⟩

theorem Shape.readable_tower (hs : Shape s ts) {t : Tower K V} (ht : t ∈ ts) {i : Nat}
    (hi : i < t.height) : Readable s t.addr i := by
  obtain ⟨fwd, hn, hlen⟩ := hs.node t ht
  exact ⟨_, hn, hlen ▸ hi⟩

/-- Every node a level's chain starts from or visits reaches that level. -/
theorem Shape.readable_lastOf (hs : Shape s ts) {i : Nat} (hi : i < s.maxLevel)
    {l : List (Tower K V)} (hl : ∀ t ∈ l, t ∈ ts ∧ i < t.height) :
    Readable s (lastOf s.head (l.map Tower.addr)) i := by
  rcases List.mem_cons.mp (lastOf_mem s.head (l.map Tower.addr)) with heq | hmem
  · rw [heq]
    exact hs.readable_head hi
  · obtain ⟨t, ht, heq⟩ := List.mem_map.mp hmem
    rw [← heq]
    exact hs.readable_tower (hl t ht).1 (hl t ht).2

theorem Shape.length_le_fresh (hs : Shape s ts) : ts.length ≤ s.fresh := by
  have hnd := (List.nodup_cons.mp hs.nodup).2
  have hsub : ∀ a ∈ ts.map Tower.addr, a ∈ List.range s.fresh := by
    intro a ha
    exact List.mem_range.mpr (hs.bound a (List.mem_cons_of_mem _ ha))
  have := (List.subperm_of_subset hnd hsub).length_le
  simpa using this

/-- The inner loop stops at the last node of its level below the key. -/
theorem advance_spec (hs : Shape s ts) {key : K} {i : Nat} :
    ∀ (l : List (Tower K V)) (fuel curr : Nat),
      (∀ t ∈ l, t ∈ ts ∧ i < t.height) →
      Linked (s.next i) curr (l.map Tower.addr) → Readable s curr i → l.length < fuel →
      s.advance key i fuel curr
        = .ok (lastOf curr ((l.takeWhile (fun t => t.key < key)).map Tower.addr)) := by
  intro l
  induction l with
  | nil =>
      intro fuel curr _ hlink hread hfuel
      obtain ⟨n, hn, hi⟩ := hread
      cases fuel with
      | zero => omega
      | succ fuel =>
          have hnone : s.next i curr = none := hlink
          simp only [SkipList.advance, deref_of_nodes hn, ok_bind, forwardAt_eq_next hn hi, hnone]
          rfl
  | cons t l ih =>
      intro fuel curr hl hlink hread hfuel
      obtain ⟨n, hn, hi⟩ := hread
      cases fuel with
      | zero => omega
      | succ fuel =>
          obtain ⟨hts, hti⟩ := hl t List.mem_cons_self
          obtain ⟨fwd, hnode, hlen⟩ := hs.node t hts
          have hnext : s.next i curr = some t.addr := hlink.1
          simp only [SkipList.advance, deref_of_nodes hn, ok_bind, forwardAt_eq_next hn hi, hnext,
            deref_of_nodes hnode]
          by_cases hlt : t.key < key
          · rw [if_pos hlt, List.takeWhile_cons_of_pos (by simpa using hlt)]
            refine ih fuel t.addr (fun u hu => hl u (List.mem_cons_of_mem _ hu)) hlink.2
              (hs.readable_tower hts hti) ?_
            rw [List.length_cons] at hfuel
            omega
          · rw [if_neg hlt, List.takeWhile_cons_of_neg (by simpa using hlt)]
            rfl

/-- The towers below a key and the towers at or above it. -/
structure SplitAt (key : K) (ts pre post : List (Tower K V)) : Prop where
  eq : ts = pre ++ post
  below : ∀ t ∈ pre, t.key < key
  above : ∀ t ∈ post, ¬ t.key < key

theorem Shape.exists_split (hs : Shape s ts) (key : K) :
    ∃ pre post, SplitAt key ts pre post := by
  have hgen : ∀ us : List (Tower K V), us.Pairwise (fun t u => t.key < u.key) →
      ∃ pre post, SplitAt key us pre post := by
    intro us
    induction us with
    | nil => intro _; exact ⟨[], [], rfl, by simp, by simp⟩
    | cons t us ih =>
        intro hsorted
        obtain ⟨hlt, hsorted'⟩ := List.pairwise_cons.mp hsorted
        by_cases ht : t.key < key
        · obtain ⟨pre, post, heq, hbelow, habove⟩ := ih hsorted'
          refine ⟨t :: pre, post, by rw [heq]; rfl, ?_, habove⟩
          intro u hu
          rcases List.mem_cons.mp hu with h | h
          · rw [h]
            exact ht
          · exact hbelow u h
        · refine ⟨[], t :: us, rfl, by simp, ?_⟩
          intro u hu
          rcases List.mem_cons.mp hu with h | h
          · rw [h]
            exact ht
          · exact fun hu' => ht ((hlt u h).trans hu')
  exact hgen ts hs.sorted

/-- The last node below the key on level `i`: what `update[i]` is. -/
def pred (s : SkipList K V) (pre : List (Tower K V)) (i : Nat) : Nat :=
  lastOf s.head (levelAddrs i pre)

variable {key : K} {pre post : List (Tower K V)}

theorem Shape.readable_pred (hs : Shape s ts) (hsp : SplitAt key ts pre post) {i : Nat}
    (hi : i < s.maxLevel) : Readable s (pred s pre i) i := by
  refine hs.readable_lastOf hi ?_
  intro t ht
  obtain ⟨h1, h2⟩ := mem_level ht
  exact ⟨hsp.eq ▸ List.mem_append_left _ h1, h2⟩

/-- Walking a level while the keys are below `key` stops at the first tower behind it. -/
theorem takeWhile_level (hsp : SplitAt key ts pre post) {B : List (Tower K V)}
    (hB : ∀ t ∈ B, t ∈ pre) (i : Nat) :
    (B ++ post.filter (fun t => i < t.height)).takeWhile (fun t => t.key < key) = B := by
  rw [List.takeWhile_append_of_pos (fun t ht => by simpa using hsp.below t (hB t ht))]
  have hnil : (post.filter (fun t => i < t.height)).takeWhile (fun t => t.key < key) = [] := by
    cases hf : post.filter (fun t => i < t.height) with
    | nil => rfl
    | cons t r =>
        have ht : t ∈ post := (mem_level (i := i) (by rw [hf]; exact List.mem_cons_self)).1
        rw [List.takeWhile_cons_of_neg (by simpa using hsp.above t ht)]
  rw [hnil, List.append_nil]

/-- One level of the descent: the chain of level `i` from the last node below
    the key one level up, with the last node below the key on this level. -/
theorem Shape.exists_level_chain (hs : Shape s ts) (hsp : SplitAt key ts pre post) {i : Nat}
    (hi : i < s.maxLevel) :
    ∃ l : List (Tower K V), (∀ t ∈ l, t ∈ ts ∧ i < t.height)
      ∧ Linked (s.next i) (pred s pre (i + 1)) (l.map Tower.addr)
      ∧ Readable s (pred s pre (i + 1)) i ∧ l.length ≤ s.fresh
      ∧ lastOf (pred s pre (i + 1)) ((l.takeWhile (fun t => t.key < key)).map Tower.addr)
        = pred s pre i := by
  -- split this level's towers below the key at the last one that reaches level `i + 1`
  obtain ⟨A, B, hAB, hlast⟩ := exists_split_lastOf_filter (fun t : Tower K V => i + 1 < t.height)
    Tower.addr s.head (pre.filter (fun t => i < t.height))
  rw [filter_level] at hlast
  have hstart : pred s pre (i + 1) = lastOf s.head (A.map Tower.addr) := hlast.symm
  have hlevel : levelAddrs i ts
      = A.map Tower.addr ++ (B ++ post.filter (fun t => i < t.height)).map Tower.addr := by
    rw [hsp.eq, levelAddrs_append]
    simp only [levelAddrs, hAB, List.map_append, List.append_assoc]
  have hlink := hs.linked i hi
  rw [hlevel] at hlink
  have hB : ∀ t ∈ B, t ∈ pre ∧ i < t.height := by
    intro t ht
    refine mem_level (l := pre) ?_
    rw [hAB]
    exact List.mem_append_right _ ht
  have hA : ∀ t ∈ A, t ∈ ts ∧ i < t.height := by
    intro t ht
    obtain ⟨h1, h2⟩ := mem_level (l := pre) (t := t) (i := i)
      (by rw [hAB]; exact List.mem_append_left _ ht)
    exact ⟨hsp.eq ▸ List.mem_append_left _ h1, h2⟩
  rw [hstart]
  refine ⟨B ++ post.filter (fun t => i < t.height), ?_, linked_append hlink,
    hs.readable_lastOf hi hA, ?_, ?_⟩
  · intro t ht
    rcases List.mem_append.mp ht with h | h
    · exact ⟨hsp.eq ▸ List.mem_append_left _ (hB t h).1, (hB t h).2⟩
    · obtain ⟨h1, h2⟩ := mem_level h
      exact ⟨hsp.eq ▸ List.mem_append_right _ h1, h2⟩
  · have hle : (levelAddrs i ts).length ≤ ts.length := by
      simp only [levelAddrs, List.length_map]
      exact List.length_filter_le _ _
    have hts := hs.length_le_fresh
    rw [hlevel, List.length_append, List.length_map, List.length_map] at hle
    omega
  · rw [takeWhile_level hsp (fun t ht => (hB t ht).1), pred, levelAddrs, hAB, List.map_append,
      lastOf_append]

/-- The inner loop takes the descent one level further. -/
theorem advance_pred (hs : Shape s ts) (hsp : SplitAt key ts pre post) {i : Nat}
    (hi : i < s.maxLevel) :
    s.advance key i (s.fresh + 1) (pred s pre (i + 1)) = .ok (pred s pre i) := by
  obtain ⟨l, hl, hlink, hread, hlen, hlast⟩ := hs.exists_level_chain hsp hi
  rw [advance_spec hs l _ _ hl hlink hread (by omega), hlast]

/-- No tower reaches the current level, so the descent starts at the head. -/
theorem Shape.pred_above (hs : Shape s ts) (hsp : SplitAt key ts pre post) {i : Nat}
    (hi : s.currentLevel ≤ i) : pred s pre i = s.head := by
  have hnil : pre.filter (fun t => i < t.height) = [] := by
    rw [List.filter_eq_nil_iff]
    intro t ht
    have := (hs.height t (hsp.eq ▸ List.mem_append_left _ ht)).2
    simp only [decide_eq_true_eq]
    omega
  simp only [pred, levelAddrs, hnil]
  rfl

/-- **The descent of `put`**: `update[i]` is the last node below the key on
    level `i`, and `curr` the last one on the bottom level. -/
theorem descend_spec (hs : Shape s ts) (hsp : SplitAt key ts pre post) :
    ∀ (i : Nat) (update : List (Option Nat)), i ≤ s.maxLevel → update.length = s.maxLevel →
      ∃ update', s.descend key i (pred s pre i) update = .ok (pred s pre 0, update')
        ∧ update'.length = s.maxLevel
        ∧ (∀ j < i, update'[j]? = some (some (pred s pre j)))
        ∧ ∀ j, i ≤ j → update'[j]? = update[j]? := by
  intro i
  induction i with
  | zero =>
      intro update _ hlen
      exact ⟨update, rfl, hlen, fun j hj => absurd hj (Nat.not_lt_zero j), fun _ _ => rfl⟩
  | succ i ih =>
      intro update hi hlen
      have hset : setUpdate update i (some (pred s pre i))
          = .ok (update.set i (some (pred s pre i))) := by
        rw [setUpdate, if_pos (by omega)]
      obtain ⟨update', hrun, hlen', hbelow, habove⟩ :=
        ih (update.set i (some (pred s pre i))) (by omega) (by rw [List.length_set]; exact hlen)
      refine ⟨update', ?_, hlen', ?_, ?_⟩
      · rw [SkipList.descend, advance_pred hs hsp (by omega)]
        simp only [ok_bind, hset]
        exact hrun
      · intro j hj
        by_cases hji : j < i
        · exact hbelow j hji
        · have hj' : j = i := by omega
          rw [hj', habove i (Nat.le_refl i), List.getElem?_set_self (by omega)]
      · intro j hj
        rw [habove j (by omega), List.getElem?_set_ne (by omega)]

/-- The descent of `get` ends at the same node. -/
theorem search_spec (hs : Shape s ts) (hsp : SplitAt key ts pre post) :
    ∀ i, i ≤ s.maxLevel → s.search key i (pred s pre i) = .ok (pred s pre 0) := by
  intro i
  induction i with
  | zero => intro _; rfl
  | succ i ih =>
      intro hi
      rw [SkipList.search, advance_pred hs hsp (by omega)]
      exact ih (by omega)

/-- After the descent, `curr->forward[0]` is the first node at or above the
    key. -/
theorem next_pred_zero (hs : Shape s ts) (hsp : SplitAt key ts pre post) :
    s.next 0 (pred s pre 0) = (post.map Tower.addr).head? := by
  have hmax : 0 < s.maxLevel := Nat.lt_of_lt_of_le hs.level.1 hs.level.2
  have hlink := hs.linked 0 hmax
  have hpos : ∀ t ∈ post, 0 < t.height := by
    intro t ht
    exact (hs.height t (hsp.eq ▸ List.mem_append_right _ ht)).1
  rw [hsp.eq, levelAddrs_append, levelAddrs_zero hpos] at hlink
  exact next_lastOf hlink

/-- The read at the end of every descent. -/
theorem read_pred_zero (hs : Shape s ts) (hsp : SplitAt key ts pre post) :
    ∃ n, s.deref (some (pred s pre 0)) = .ok n
      ∧ n.forwardAt 0 = .ok (post.map Tower.addr).head? := by
  have hmax : 0 < s.maxLevel := Nat.lt_of_lt_of_le hs.level.1 hs.level.2
  obtain ⟨n, hn, hlen⟩ := hs.readable_pred hsp hmax
  refine ⟨n, deref_of_nodes hn, ?_⟩
  rw [forwardAt_eq_next hn hlen, next_pred_zero hs hsp]

/-- The entries of a split list, seen by a lookup of the key. -/
theorem lookup_contents (hsp : SplitAt key ts pre post) (hs : Shape s ts) :
    (contents ts).lookup key
      = post.head?.bind (fun t => if t.key = key then some t.value else none) := by
  have hpre : (contents pre).lookup key = none := by
    refine lookup_eq_none_iff_forall.mpr ?_
    intro b hb
    obtain ⟨t, ht, heq⟩ := List.mem_map.mp hb
    rw [← heq]
    exact (hsp.below t ht).ne
  have hcut : contents ts = contents pre ++ contents post := by
    rw [hsp.eq, contents, contents, contents, List.map_append]
  rw [hcut, lookup_append, hpre]
  cases post with
  | nil => rfl
  | cons t r =>
      have hsorted := hs.sorted
      rw [hsp.eq] at hsorted
      have hr : ∀ u ∈ r, t.key < u.key :=
        (List.pairwise_cons.mp (List.pairwise_append.mp hsorted).2.1).1
      show List.lookup key ((t.key, t.value) :: contents r)
        = if t.key = key then some t.value else none
      rw [List.lookup_cons]
      by_cases h : t.key = key
      · rw [if_pos h, beq_iff_eq.mpr h.symm]
      · rw [if_neg h, beq_false_of_ne (Ne.symm h)]
        refine lookup_eq_none_of_lt ?_
        intro b hb
        obtain ⟨u, hu, heq⟩ := List.mem_map.mp hb
        rw [← heq]
        exact lt_of_le_of_lt (not_lt.mp (hsp.above t List.mem_cons_self)) (hr u hu)

/-- **`get` is a lookup in the contents.** -/
theorem get_spec (hs : Shape s ts) (key : K) : s.get key = .ok ((contents ts).lookup key) := by
  obtain ⟨pre, post, hsp⟩ := hs.exists_split key
  obtain ⟨n, hn, hread⟩ := read_pred_zero hs hsp
  have hsearch := search_spec hs hsp s.currentLevel hs.level.2
  rw [hs.pred_above hsp (Nat.le_refl _)] at hsearch
  rw [SkipList.get, hsearch, lookup_contents hsp hs]
  simp only [ok_bind, hn, hread]
  cases post with
  | nil => rfl
  | cons t r =>
      obtain ⟨fwd, hnode, -⟩ := hs.node t (hsp.eq ▸ List.mem_append_right _ List.mem_cons_self)
      simp only [List.map_cons, List.head?_cons, deref_of_nodes hnode, ok_bind, Option.bind_some]
      split <;> rfl

/-- Moving right and falling one level, in the loop of `find_greater_or_equal`. -/
theorem findLoop_level (hs : Shape s ts) {i : Nat} :
    ∀ (l : List (Tower K V)) (fuel curr : Nat),
      (∀ t ∈ l, t ∈ ts ∧ i < t.height) →
      Linked (s.next i) curr (l.map Tower.addr) → Readable s curr i →
      s.findLoop key (fuel + (l.takeWhile (fun t => t.key < key)).length + 1) curr (i + 1)
        = s.findLoop key fuel
            (lastOf curr ((l.takeWhile (fun t => t.key < key)).map Tower.addr)) i := by
  intro l
  induction l with
  | nil =>
      intro fuel curr _ hlink hread
      obtain ⟨n, hn, hi⟩ := hread
      have hnone : s.next i curr = none := hlink
      simp only [List.takeWhile_nil, List.length_nil, Nat.add_zero, SkipList.findLoop,
        deref_of_nodes hn, ok_bind, forwardAt_eq_next hn hi, hnone]
      rfl
  | cons t l ih =>
      intro fuel curr hl hlink hread
      obtain ⟨n, hn, hi⟩ := hread
      obtain ⟨hts, hti⟩ := hl t List.mem_cons_self
      obtain ⟨fwd, hnode, hlen⟩ := hs.node t hts
      have hnext : s.next i curr = some t.addr := hlink.1
      simp only [SkipList.findLoop, deref_of_nodes hn, ok_bind, forwardAt_eq_next hn hi, hnext,
        deref_of_nodes hnode]
      by_cases hlt : t.key < key
      · rw [if_pos hlt, List.takeWhile_cons_of_pos (by simpa using hlt), List.length_cons]
        exact ih fuel t.addr (fun u hu => hl u (List.mem_cons_of_mem _ hu)) hlink.2
          (hs.readable_tower hts hti)
      · rw [if_neg hlt, List.takeWhile_cons_of_neg (by simpa using hlt)]
        rfl

theorem findLoop_spec (hs : Shape s ts) (hsp : SplitAt key ts pre post) :
    ∀ (i fuel : Nat), i ≤ s.maxLevel → i * (s.fresh + 1) ≤ fuel →
      s.findLoop key fuel (pred s pre i) i = .ok (pred s pre 0) := by
  intro i
  induction i with
  | zero =>
      intro fuel _ _
      cases fuel <;> rfl
  | succ i ih =>
      intro fuel hi hfuel
      obtain ⟨l, hl, hlink, hread, hlen, hlast⟩ := hs.exists_level_chain hsp (i := i) (by omega)
      have hmoves : (l.takeWhile (fun t => t.key < key)).length ≤ l.length :=
        (List.takeWhile_sublist _).length_le
      rw [Nat.add_mul] at hfuel
      obtain ⟨rest, hrest⟩ : ∃ rest, fuel = rest
          + (l.takeWhile (fun t => t.key < key)).length + 1 :=
        ⟨fuel - (l.takeWhile (fun t => t.key < key)).length - 1, by omega⟩
      rw [hrest, findLoop_level hs l rest _ hl hlink hread, hlast]
      exact ih rest (by omega) (by omega)

/-- **`find_greater_or_equal` finds the first node at or above its key.** -/
theorem findGreaterOrEqual_spec (hs : Shape s ts) (hsp : SplitAt key ts pre post) :
    s.findGreaterOrEqual key = .ok (post.map Tower.addr).head? := by
  obtain ⟨n, hn, hread⟩ := read_pred_zero hs hsp
  have hloop := findLoop_spec hs hsp s.currentLevel _ hs.level.2 (Nat.le_refl _)
  rw [hs.pred_above hsp (Nat.le_refl _)] at hloop
  rw [SkipList.findGreaterOrEqual, hloop]
  simp only [ok_bind, hn, hread]

/-- Walking the bottom level from a node visits the towers from there on. -/
theorem walk_spec (hs : Shape s ts) :
    ∀ (us : List (Tower K V)) (fuel a : Nat), (∀ t ∈ us, t ∈ ts) →
      Linked (s.next 0) a (us.map Tower.addr) → us.length ≤ fuel →
      s.walk fuel (us.map Tower.addr).head? = .ok (contents us) := by
  intro us
  induction us with
  | nil =>
      intro fuel a _ _ _
      cases fuel <;> rfl
  | cons t us ih =>
      intro fuel a hsub hlink hfuel
      cases fuel with
      | zero => simp at hfuel
      | succ fuel =>
          have hts := hsub t List.mem_cons_self
          obtain ⟨fwd, hnode, hlen⟩ := hs.node t hts
          have hpos : 0 < fwd.length := hlen ▸ (hs.height t hts).1
          have hnext : s.next 0 t.addr = (us.map Tower.addr).head? :=
            linked_head hlink.2
          rw [List.map_cons, List.head?_cons, SkipList.walk]
          simp only [deref_of_nodes hnode, ok_bind, forwardAt_eq_next hnode hpos, hnext]
          rw [ih fuel t.addr (fun u hu => hsub u (List.mem_cons_of_mem _ hu)) hlink.2
            (by simpa using hfuel)]
          rfl

/-- The bottom level, from the head. -/
theorem Shape.linked_zero (hs : Shape s ts) :
    Linked (s.next 0) s.head (ts.map Tower.addr) := by
  have h := hs.linked 0 (Nat.lt_of_lt_of_le hs.level.1 hs.level.2)
  rwa [levelAddrs_zero (fun t ht => (hs.height t ht).1)] at h

/-- The head's first pointer. -/
theorem Shape.read_head (hs : Shape s ts) :
    ∃ n, s.deref (some s.head) = .ok n ∧ n.forwardAt 0 = .ok (ts.map Tower.addr).head? := by
  obtain ⟨n, hn, hlen⟩ := hs.readable_head (Nat.lt_of_lt_of_le hs.level.1 hs.level.2)
  refine ⟨n, deref_of_nodes hn, ?_⟩
  rw [forwardAt_eq_next hn hlen, linked_head hs.linked_zero]

/-- **`dump_all` is the contents.** -/
theorem dumpAll_spec (hs : Shape s ts) : s.dumpAll = .ok (contents ts) := by
  obtain ⟨n, hn, hread⟩ := hs.read_head
  rw [SkipList.dumpAll]
  simp only [hn, ok_bind, hread]
  exact walk_spec hs ts s.fresh s.head (fun t ht => ht) hs.linked_zero hs.length_le_fresh

/-- Walking on from `find_greater_or_equal` visits the entries at or above the
    key. -/
theorem walk_findGreaterOrEqual (hs : Shape s ts) (hsp : SplitAt key ts pre post) :
    (s.findGreaterOrEqual key >>= fun p => s.walk s.fresh p) = .ok (contents post) := by
  rw [findGreaterOrEqual_spec hs hsp, ok_bind]
  have hlink := hs.linked_zero
  rw [hsp.eq, List.map_append] at hlink
  refine walk_spec hs post s.fresh _ (fun t ht => hsp.eq ▸ List.mem_append_right _ ht)
    (linked_append hlink) ?_
  have := hs.length_le_fresh
  rw [hsp.eq, List.length_append] at this
  omega

theorem Shape.keySorted (hs : Shape s ts) : KeySorted (contents ts) := by
  rw [KeySorted, contents, List.pairwise_map]
  exact hs.sorted

end Reads

/-! ## Writing -/

/-- The same nodes up to their pointers, in the same object. -/
structure Relinked (s s' : SkipList K V) : Prop where
  head : s'.head = s.head
  maxLevel : s'.maxLevel = s.maxLevel
  currentLevel : s'.currentLevel = s.currentLevel
  nodeCount : s'.nodeCount = s.nodeCount
  fresh : s'.fresh = s.fresh
  nodes : ∀ a n, s.nodes a = some n → ∃ fwd,
    s'.nodes a = some ⟨n.key, n.value, fwd⟩ ∧ fwd.length = n.forward.length

theorem Relinked.refl (s : SkipList K V) : Relinked s s :=
  ⟨rfl, rfl, rfl, rfl, rfl, fun _ n hn => ⟨n.forward, hn, rfl⟩⟩

theorem Relinked.trans {s s' s'' : SkipList K V} (h : Relinked s s') (h' : Relinked s' s'') :
    Relinked s s'' := by
  refine ⟨h'.head.trans h.head, h'.maxLevel.trans h.maxLevel,
    h'.currentLevel.trans h.currentLevel, h'.nodeCount.trans h.nodeCount,
    h'.fresh.trans h.fresh, ?_⟩
  intro a n hn
  obtain ⟨fwd, hn', hlen⟩ := h.nodes a n hn
  obtain ⟨fwd', hn'', hlen'⟩ := h'.nodes a _ hn'
  exact ⟨fwd', hn'', hlen'.trans hlen⟩

theorem Relinked.readable {s s' : SkipList K V} (h : Relinked s s') {a i : Nat}
    (hr : Readable s a i) : Readable s' a i := by
  obtain ⟨n, hn, hi⟩ := hr
  obtain ⟨fwd, hn', hlen⟩ := h.nodes a n hn
  exact ⟨_, hn', by rw [hlen]; exact hi⟩

/-- One pointer is written and every other one kept. -/
theorem setForward_spec {s : SkipList K V} {a i : Nat} (p : Option Nat) (hr : Readable s a i) :
    ∃ s', s.setForward a i p = .ok s' ∧ Relinked s s'
      ∧ ∀ j b, s'.next j b = if j = i ∧ b = a then p else s.next j b := by
  obtain ⟨n, hn, hi⟩ := hr
  refine ⟨s.store a { n with forward := n.forward.set i p }, ?_, ?_, ?_⟩
  · simp only [SkipList.setForward, deref_of_nodes hn, ok_bind, if_pos hi]
    rfl
  · refine ⟨rfl, rfl, rfl, rfl, rfl, ?_⟩
    intro b m hm
    by_cases hb : b = a
    · subst hb
      have hmn : m = n := Option.some.inj (hm.symm.trans hn)
      subst hmn
      exact ⟨m.forward.set i p, by simp [SkipList.store], List.length_set⟩
    · exact ⟨m.forward, by simp [SkipList.store, hb, hm], rfl⟩
  · intro j b
    by_cases hb : b = a
    · subst hb
      by_cases hj : j = i
      · subst hj
        simp [SkipList.next, SkipList.store, List.getElem?_set_self hi]
      · rw [if_neg (fun h => hj h.1)]
        simp [SkipList.next, SkipList.store, hn, List.getElem?_set_ne (Ne.symm hj)]
    · rw [if_neg (fun h => hb h.2)]
      simp [SkipList.next, SkipList.store, hb]

/-- **The linking loop** puts the new node between `u j` and its successor on
    each of its levels `j`. -/
theorem link_spec {update : List (Option Nat)} {newNode : Nat} {u : Nat → Nat} :
    ∀ (n i : Nat) (s : SkipList K V),
      (∀ j, i ≤ j → j < i + n → update[j]? = some (some (u j)) ∧ Readable s (u j) j
        ∧ u j ≠ newNode ∧ Readable s newNode j) →
      ∃ s', SkipList.link update newNode n i s = .ok s' ∧ Relinked s s'
        ∧ ∀ j a, s'.next j a
          = if i ≤ j ∧ j < i + n then
              if a = newNode then s.next j (u j)
              else if a = u j then some newNode else s.next j a
            else s.next j a := by
  -- one level a turn, from the lowest up; levels below `i` stay as they are
  intro n
  induction n with
  | zero =>
      intro i s _
      refine ⟨s, rfl, Relinked.refl s, ?_⟩
      intro j a
      rw [if_neg (by omega)]
  | succ n ih =>
      intro i s hyp
      obtain ⟨hupd, hru, hne, hrn⟩ := hyp i (Nat.le_refl i) (by omega)
      obtain ⟨m, hm, hmi⟩ := hru
      obtain ⟨s₁, hrun₁, hrel₁, hnext₁⟩ := setForward_spec (s.next i (u i)) hrn
      obtain ⟨s₂, hrun₂, hrel₂, hnext₂⟩ :=
        setForward_spec (some newNode) (hrel₁.readable ⟨m, hm, hmi⟩)
      have hrel := hrel₁.trans hrel₂
      obtain ⟨s₃, hrun₃, hrel₃, hnext₃⟩ := ih (i + 1) s₂ (by
        intro j hj1 hj2
        obtain ⟨h1, h2, h3, h4⟩ := hyp j (by omega) (by omega)
        exact ⟨h1, hrel.readable h2, h3, hrel.readable h4⟩)
      refine ⟨s₃, ?_, hrel.trans hrel₃, ?_⟩
      · rw [SkipList.link, hupd]
        simp only [pure, Except.pure, ok_bind, deref_of_nodes hm, forwardAt_eq_next hm hmi,
          hrun₁, hrun₂]
        exact hrun₃
      · intro j a
        have hstep : ∀ b, j ≠ i → s₂.next j b = s.next j b := by
          intro b hj
          rw [hnext₂, if_neg (fun h => hj h.1), hnext₁, if_neg (fun h => hj h.1)]
        rw [hnext₃]
        by_cases hj : j = i
        -- level `i` itself was written by this turn, and by no later one
        · subst hj
          have hin : j ≤ j ∧ j < j + (n + 1) := by omega
          rw [if_neg (by omega), if_pos hin, hnext₂, hnext₁]
          by_cases ha : a = newNode
          · rw [if_neg (fun h => hne (h.2.symm.trans ha)), if_pos ⟨rfl, ha⟩, if_pos ha]
          · by_cases hau : a = u j
            · rw [if_pos ⟨rfl, hau⟩, if_neg ha, if_pos hau]
            · rw [if_neg (fun h => hau h.2), if_neg (fun h => ha h.2), if_neg ha, if_neg hau]
        · by_cases hin : i + 1 ≤ j ∧ j < i + 1 + n
          · have hin' : i ≤ j ∧ j < i + (n + 1) := by omega
            rw [if_pos hin, if_pos hin', hstep _ hj, hstep _ hj]
          · have hin' : ¬ (i ≤ j ∧ j < i + (n + 1)) := by omega
            rw [if_neg hin, if_neg hin', hstep _ hj]

/-- The levels above the current one start from the head. -/
theorem fillHead_spec (head : Nat) :
    ∀ (n i : Nat) (update : List (Option Nat)), i + n ≤ update.length →
      ∃ update', fillHead head n i update = .ok update' ∧ update'.length = update.length
        ∧ ∀ j, update'[j]? = if i ≤ j ∧ j < i + n then some (some head) else update[j]? := by
  intro n
  induction n with
  | zero =>
      intro i update _
      refine ⟨update, rfl, rfl, ?_⟩
      intro j
      rw [if_neg (by omega)]
  | succ n ih =>
      intro i update hlen
      obtain ⟨update', hrun, hlen', hget⟩ := ih (i + 1) (update.set i (some head))
        (by rw [List.length_set]; omega)
      refine ⟨update', ?_, by rw [hlen', List.length_set], ?_⟩
      · rw [fillHead, setUpdate, if_pos (by omega)]
        exact hrun
      · intro j
        rw [hget]
        by_cases hj : j = i
        · subst hj
          rw [if_neg (by omega), if_pos (by omega), List.getElem?_set_self (by omega)]
        · rw [List.getElem?_set_ne (Ne.symm hj)]
          by_cases hin : i + 1 ≤ j ∧ j < i + 1 + n
          · rw [if_pos hin, if_pos (by omega)]
          · rw [if_neg hin, if_neg (by omega)]

/-- `random_level` draws a height between `1` and `max_level`. -/
theorem randomLevelLoop_bounds (maxLevel : Nat) :
    ∀ (fuel lvl : Nat) (draws : Nat → Bool), lvl ≤ maxLevel →
      lvl ≤ (randomLevelLoop maxLevel fuel lvl draws).1
        ∧ (randomLevelLoop maxLevel fuel lvl draws).1 ≤ maxLevel := by
  intro fuel
  induction fuel with
  | zero => intro lvl draws h; exact ⟨Nat.le_refl _, h⟩
  | succ fuel ih =>
      intro lvl draws h
      rw [randomLevelLoop]
      by_cases hc : draws 0 = true ∧ lvl < maxLevel
      · rw [if_pos hc]
        obtain ⟨h1, h2⟩ := ih (lvl + 1) (fun j => draws (j + 1)) hc.2
        exact ⟨by omega, h2⟩
      · rw [if_neg hc]
        exact ⟨Nat.le_refl _, h⟩

theorem levelAddrs_insert (j : Nat) (t : Tower K V) (pre post : List (Tower K V)) :
    levelAddrs j (pre ++ t :: post)
      = levelAddrs j pre ++ ((if j < t.height then [t.addr] else []) ++ levelAddrs j post) := by
  rw [levelAddrs_append]
  congr 1
  by_cases hj : j < t.height
  · simp [levelAddrs, hj]
  · simp [levelAddrs, hj]

section Writes

variable [LinearOrder K] {s : SkipList K V} {ts pre post : List (Tower K V)} {key : K}

/-- The `update` vector `insert` links along: the predecessors on all levels of
    the new tower. -/
theorem update_spec (hs : Shape s ts) (hsp : SplitAt key ts pre post)
    {update : List (Option Nat)} (hlen : update.length = s.maxLevel)
    (hupd : ∀ j < s.currentLevel, update[j]? = some (some (pred s pre j))) {newLevel : Nat}
    (hnew : newLevel ≤ s.maxLevel) :
    ∃ update', s.growUpdate newLevel update = .ok update'
      ∧ ∀ j < newLevel, update'[j]? = some (some (pred s pre j)) := by
  rw [SkipList.growUpdate]
  by_cases hgt : newLevel > s.currentLevel
  · rw [if_pos hgt]
    obtain ⟨update', hrun, -, hget⟩ := fillHead_spec s.head (newLevel - s.currentLevel)
      s.currentLevel update (by omega)
    refine ⟨update', hrun, ?_⟩
    intro j hj
    rw [hget]
    by_cases hjc : j < s.currentLevel
    · rw [if_neg (by omega), hupd j hjc]
    · rw [if_pos (by omega), hs.pred_above hsp (by omega)]
  · rw [if_neg hgt]
    exact ⟨update, rfl, fun j hj => hupd j (by omega)⟩

/-- What a successful insertion leaves: a new node of height `newLevel`, linked
    behind its predecessor on each of its levels. -/
structure Inserted (s s' : SkipList K V) (pre : List (Tower K V)) (key : K) (value : V)
    (newLevel : Nat) : Prop where
  head : s'.head = s.head
  maxLevel : s'.maxLevel = s.maxLevel
  currentLevel : s'.currentLevel
    = if newLevel > s.currentLevel then newLevel else s.currentLevel
  nodeCount : s'.nodeCount = s.nodeCount + 1
  fresh : s'.fresh = s.fresh + 1
  levelBounds : 0 < newLevel ∧ newLevel ≤ s.maxLevel
  newNode : ∃ fwd, s'.nodes s.fresh = some ⟨key, value, fwd⟩ ∧ fwd.length = newLevel
  nodes : ∀ a n, a ≠ s.fresh → s.nodes a = some n → ∃ fwd,
    s'.nodes a = some ⟨n.key, n.value, fwd⟩ ∧ fwd.length = n.forward.length
  next : ∀ j a, a ≠ s.fresh → s'.next j a
    = if j < newLevel ∧ a = pred s pre j then some s.fresh else s.next j a
  nextNew : ∀ j < newLevel, s'.next j s.fresh = s.next j (pred s pre j)

theorem SplitAt.pred_mem (hsp : SplitAt key ts pre post) (s : SkipList K V) (j : Nat) :
    pred s pre j ∈ s.head :: ts.map Tower.addr := by
  rcases List.mem_cons.mp (lastOf_mem s.head (levelAddrs j pre)) with heq | hmem
  · rw [pred, heq]
    exact List.mem_cons_self
  · obtain ⟨t, ht, heq⟩ := List.mem_map.mp hmem
    rw [pred, ← heq, hsp.eq]
    exact List.mem_cons_of_mem _ (List.mem_map_of_mem (List.mem_append_left _ (mem_level ht).1))

/-- The tail of `put` runs, whatever height is drawn. -/
theorem insert_run (hs : Shape s ts) (hsp : SplitAt key ts pre post) (value : V)
    {update : List (Option Nat)} (hlen : update.length = s.maxLevel)
    (hupd : ∀ j < s.currentLevel, update[j]? = some (some (pred s pre j))) :
    ∃ s' newLevel, s.insert key value update = .ok s' ∧ Inserted s s' pre key value newLevel := by
  have hmax : 0 < s.maxLevel := Nat.lt_of_lt_of_le hs.level.1 hs.level.2
  obtain ⟨hge, hle⟩ := randomLevelLoop_bounds s.maxLevel s.maxLevel 1 s.draws hmax
  obtain ⟨newLevel, draws, hdraw⟩ : ∃ newLevel draws,
      randomLevelLoop s.maxLevel s.maxLevel 1 s.draws = (newLevel, draws) := ⟨_, _, rfl⟩
  rw [hdraw] at hge hle
  obtain ⟨update', hfill, hupd'⟩ := update_spec hs hsp hlen hupd hle
  -- the state the linking loop starts from
  obtain ⟨s₁, hs₁⟩ : ∃ s₁ : SkipList K V, s₁ = SkipList.store
    { s with
      draws := draws
      currentLevel := if newLevel > s.currentLevel then newLevel else s.currentLevel
      fresh := s.fresh + 1 }
    s.fresh ⟨key, value, List.replicate newLevel none⟩ := ⟨_, rfl⟩
  have hold : ∀ a, a ≠ s.fresh → s₁.nodes a = s.nodes a := by
    intro a ha
    rw [hs₁]
    exact if_neg ha
  have hnew₁ : s₁.nodes s.fresh = some ⟨key, value, List.replicate newLevel none⟩ := by
    rw [hs₁]
    exact if_pos rfl
  have hnext₁ : ∀ j a, a ≠ s.fresh → s₁.next j a = s.next j a := by
    intro j a ha
    simp only [SkipList.next, hold a ha]
  have hpredne : ∀ j, pred s pre j ≠ s.fresh := by
    intro j
    exact (hs.bound _ (hsp.pred_mem s j)).ne
  -- each level's update entry is its predecessor, which is not the new node
  have hlinkpre : ∀ j, 0 ≤ j → j < 0 + newLevel → update'[j]? = some (some (pred s pre j))
      ∧ Readable s₁ (pred s pre j) j ∧ pred s pre j ≠ s.fresh ∧ Readable s₁ s.fresh j := by
    intro j _ hj
    obtain ⟨n, hn, hjn⟩ := hs.readable_pred hsp (i := j) (by omega)
    refine ⟨hupd' j (by omega), ⟨n, (hold _ (hpredne j)).trans hn, hjn⟩, hpredne j, _, hnew₁, ?_⟩
    rw [List.length_replicate]
    omega
  obtain ⟨s₂, hlink, hrel, hnext₂⟩ := link_spec newLevel 0 s₁ hlinkpre
  refine ⟨{ s₂ with nodeCount := s₂.nodeCount + 1 }, newLevel, ?_, ?_⟩
  · rw [SkipList.insert, SkipList.randomLevel, hdraw]
    dsimp only
    rw [hfill, ok_bind, ← hs₁, hlink]
    rfl
  · refine ⟨?_, ?_, ?_, ?_, ?_, ⟨hge, hle⟩, ?_, ?_, ?_, ?_⟩
    · exact hrel.head.trans (by rw [hs₁]; rfl)
    · exact hrel.maxLevel.trans (by rw [hs₁]; rfl)
    · exact hrel.currentLevel.trans (by rw [hs₁]; rfl)
    · show s₂.nodeCount + 1 = s.nodeCount + 1
      rw [hrel.nodeCount, hs₁]
      rfl
    · exact hrel.fresh.trans (by rw [hs₁]; rfl)
    · obtain ⟨fwd, hn, hflen⟩ := hrel.nodes s.fresh _ hnew₁
      exact ⟨fwd, hn, by rw [hflen, List.length_replicate]⟩
    · intro a n ha hn
      exact hrel.nodes a n ((hold a ha).trans hn)
    · intro j a ha
      show s₂.next j a = _
      rw [hnext₂, if_neg ha, hnext₁ j a ha]
      by_cases hj : j < newLevel
      · rw [if_pos (by omega)]
        by_cases hap : a = pred s pre j
        · rw [if_pos hap, if_pos ⟨hj, hap⟩]
        · rw [if_neg hap, if_neg (fun h => hap h.2)]
      · rw [if_neg (by omega), if_neg (fun h => hj h.1)]
    · intro j hj
      show s₂.next j s.fresh = _
      rw [hnext₂, if_pos (by omega), if_pos rfl, hnext₁ j _ (hpredne j)]

/-- A tower's address is none of the others. -/
theorem nodup_addrs {t : Tower K V} (hs : Shape s ts) (heq : ts = pre ++ t :: post) :
    (t.addr :: s.head :: (pre ++ post).map Tower.addr).Nodup :=
  (addrs_perm s.head pre post t).nodup_iff.mp (heq ▸ hs.nodup)

/-- **The chain of each level**: below its height the new node is linked in, and the
    levels above are untouched. -/
theorem Inserted.linked (hs : Shape s ts) (hsp : SplitAt key ts pre post) {s' : SkipList K V}
    {value : V} {newLevel : Nat} (hi : Inserted s s' pre key value newLevel) {j : Nat}
    (hj : j < s.maxLevel) :
    Linked (s'.next j) s'.head
      (levelAddrs j (pre ++ ⟨s.fresh, key, value, newLevel⟩ :: post)) := by
  have hlink := hs.linked j hj
  have hsub : (s.head :: levelAddrs j ts).Sublist (s.head :: ts.map Tower.addr) :=
    (List.filter_sublist.map _).cons_cons _
  have hne : ∀ b ∈ s.head :: levelAddrs j ts, b ≠ s.fresh := by
    intro b hb
    exact (hs.bound b (hsub.subset hb)).ne
  have hnd := hs.nodup.sublist hsub
  rw [hsp.eq, levelAddrs_append] at hlink hne hnd
  rw [levelAddrs_insert, hi.head]
  by_cases hjn : j < newLevel
  · rw [if_pos hjn]
    refine linked_insert hlink hnd ?_ (hi.nextNew j hjn) ?_
    · have hpne := (hs.bound _ (hsp.pred_mem s j)).ne
      exact (hi.next j _ hpne).trans (if_pos ⟨hjn, rfl⟩)
    · intro b hb hbp
      rw [hi.next j b (hne b hb), if_neg (fun h => hbp h.2)]
  · rw [if_neg hjn]
    refine linked_congr ?_ hlink
    intro b hb
    rw [hi.next j b (hne b hb), if_neg (fun h => hjn h.1)]

/-- **Insertion keeps the shape.** -/
theorem Shape.inserted (hs : Shape s ts) (hsp : SplitAt key ts pre post)
    (hgt : ∀ t ∈ post, key < t.key) {s' : SkipList K V} {value : V} {newLevel : Nat}
    (hi : Inserted s s' pre key value newLevel) :
    Shape s' (pre ++ ⟨s.fresh, key, value, newLevel⟩ :: post) := by
  have hmem : ∀ t ∈ pre ++ (⟨s.fresh, key, value, newLevel⟩ : Tower K V) :: post,
      t = ⟨s.fresh, key, value, newLevel⟩ ∨ t ∈ ts := by
    intro t ht
    rw [hsp.eq]
    exact List.mem_cons.mp (List.perm_middle.mem_iff.mp ht)
  -- whatever its place, the new node has the one new address
  have hperm : (s'.head :: (pre ++ (⟨s.fresh, key, value, newLevel⟩ : Tower K V)
        :: post).map Tower.addr).Perm (s.fresh :: s.head :: ts.map Tower.addr) := by
    rw [hi.head, hsp.eq]
    exact addrs_perm s.head pre post _
  have hne : ∀ t ∈ ts, t.addr ≠ s.fresh := by
    intro t ht
    exact (hs.bound t.addr (List.mem_cons_of_mem _ (List.mem_map_of_mem ht))).ne
  have hcur : newLevel ≤ s'.currentLevel ∧ s.currentLevel ≤ s'.currentLevel
      ∧ s'.currentLevel ≤ s'.maxLevel := by
    have h1 := hi.levelBounds
    have h2 := hs.level
    rw [hi.currentLevel, hi.maxLevel]
    split <;> omega
  refine
    { nodup := hperm.nodup_iff.mpr
        (List.nodup_cons.mpr ⟨fun h => Nat.lt_irrefl _ (hs.bound _ h), hs.nodup⟩)
      bound := ?_
      head := ?_
      node := ?_
      height := ?_
      level := ⟨Nat.lt_of_lt_of_le hs.level.1 hcur.2.1, hcur.2.2⟩
      sorted := ?_
      linked := fun j hj => hi.linked hs hsp (hi.maxLevel ▸ hj)
      count := ?_ }
  · intro a ha
    rw [hi.fresh]
    rcases List.mem_cons.mp (hperm.mem_iff.mp ha) with rfl | h
    · exact Nat.lt_succ_self _
    · exact Nat.lt_succ_of_lt (hs.bound a h)
  · obtain ⟨n, hn, hlen⟩ := hs.head
    obtain ⟨fwd, hn', hlen'⟩ := hi.nodes s.head n (hs.bound _ List.mem_cons_self).ne hn
    exact ⟨_, hi.head ▸ hn', hlen'.trans (hlen.trans hi.maxLevel.symm)⟩
  · intro t ht
    rcases hmem t ht with rfl | hts
    · exact hi.newNode
    · obtain ⟨fwd, hn, hlen⟩ := hs.node t hts
      obtain ⟨fwd', hn', hlen'⟩ := hi.nodes t.addr _ (hne t hts) hn
      exact ⟨fwd', hn', hlen'.trans hlen⟩
  · intro t ht
    rcases hmem t ht with rfl | hts
    · exact ⟨hi.levelBounds.1, hcur.1⟩
    · exact ⟨(hs.height t hts).1, (hs.height t hts).2.trans hcur.2.1⟩
  · have hsorted := hs.sorted
    rw [hsp.eq] at hsorted
    obtain ⟨h1, h2, h3⟩ := List.pairwise_append.mp hsorted
    refine List.pairwise_append.mpr ⟨h1, List.pairwise_cons.mpr ⟨hgt, h2⟩, ?_⟩
    intro t ht u hu
    rcases List.mem_cons.mp hu with rfl | hu'
    · exact hsp.below t ht
    · exact h3 t ht u hu'
  · rw [hi.nodeCount, hs.count, hsp.eq, List.length_append, List.length_append, List.length_cons]
    omega

/-- Overwriting the value of a node keeps the shape. -/
theorem Shape.stored {t : Tower K V} (hs : Shape s ts) (heq : ts = pre ++ t :: post)
    {fwd : List (Option Nat)} (hnode : s.nodes t.addr = some ⟨t.key, t.value, fwd⟩) (value : V) :
    Shape (s.store t.addr ⟨t.key, value, fwd⟩) (pre ++ { t with value := value } :: post) := by
  have hnext : ∀ j b, (s.store t.addr ⟨t.key, value, fwd⟩).next j b = s.next j b := by
    intro j b
    by_cases hb : b = t.addr
    · simp [SkipList.next, SkipList.store, hb, hnode]
    · simp [SkipList.next, SkipList.store, hb]
  have hadd : (pre ++ { t with value := value } :: post).map Tower.addr = ts.map Tower.addr := by
    simp [heq]
  have hlevel : ∀ j, levelAddrs j (pre ++ { t with value := value } :: post)
      = levelAddrs j ts := by
    intro j
    rw [heq, levelAddrs_insert, levelAddrs_insert]
  have hother : ∀ a ∈ s.head :: (pre ++ post).map Tower.addr, a ≠ t.addr := by
    rintro a ha rfl
    exact (List.nodup_cons.mp (nodup_addrs hs heq)).1 ha
  have hmem : ∀ u ∈ pre ++ { t with value := value } :: post,
      u = { t with value := value } ∨ u ∈ pre ++ post := by
    intro u hu
    exact List.mem_cons.mp (List.perm_middle.mem_iff.mp hu)
  have hts : ∀ u, u = t ∨ u ∈ pre ++ post → u ∈ ts := by
    intro u hu
    rw [heq]
    exact List.perm_middle.mem_iff.mpr (List.mem_cons.mpr hu)
  refine
    { nodup := hadd ▸ hs.nodup
      bound := hadd ▸ hs.bound
      head := ?_
      node := ?_
      height := ?_
      level := hs.level
      sorted := ?_
      linked := ?_
      count := ?_ }
  · obtain ⟨n, hn, hlen⟩ := hs.head
    exact ⟨n, (if_neg (hother _ List.mem_cons_self)).trans hn, hlen⟩
  · intro u hu
    rcases hmem u hu with rfl | hu'
    · obtain ⟨fwd', hn, hlen⟩ := hs.node t (hts t (Or.inl rfl))
      obtain rfl : fwd' = fwd := by
        rw [hnode] at hn
        simpa using hn.symm
      exact ⟨fwd', if_pos rfl, hlen⟩
    · obtain ⟨fwd', hn, hlen⟩ := hs.node u (hts u (Or.inr hu'))
      have hne : u.addr ≠ t.addr :=
        hother _ (List.mem_cons_of_mem _ (List.mem_map_of_mem hu'))
      exact ⟨fwd', (if_neg hne).trans hn, hlen⟩
  · intro u hu
    rcases hmem u hu with rfl | hu'
    · exact hs.height t (hts t (Or.inl rfl))
    · exact hs.height u (hts u (Or.inr hu'))
  · have hsorted := hs.sorted
    rw [heq] at hsorted
    obtain ⟨h1, h2, h3⟩ := List.pairwise_append.mp hsorted
    obtain ⟨h4, h5⟩ := List.pairwise_cons.mp h2
    refine List.pairwise_append.mpr ⟨h1, List.pairwise_cons.mpr ⟨h4, h5⟩, ?_⟩
    intro u hu v hv
    rcases List.mem_cons.mp hv with rfl | hv'
    · exact h3 u hu t List.mem_cons_self
    · exact h3 u hu v (List.mem_cons_of_mem _ hv')
  · intro j hj
    rw [hlevel]
    exact linked_congr (fun b _ => hnext j b) (hs.linked j hj)
  · show s.nodeCount = _
    rw [hs.count, heq]
    simp

/-- `upsert` on the contents of a split list. -/
theorem upsert_contents (hsp : SplitAt key ts pre post) (value : V) :
    upsert key value (contents ts) = contents pre ++ upsert key value (contents post) := by
  have hcut : contents ts = contents pre ++ contents post := by
    rw [hsp.eq, contents, contents, contents, List.map_append]
  rw [hcut]
  refine upsert_append_of_lt ?_
  intro b hb
  obtain ⟨t, ht, heq⟩ := List.mem_map.mp hb
  rw [← heq]
  exact hsp.below t ht

/-- **`put` is `upsert`.** -/
theorem put_spec (hs : Shape s ts) (key : K) (value : V) :
    ∃ s' ts', s.put key value = .ok s' ∧ Shape s' ts'
      ∧ contents ts' = upsert key value (contents ts) ∧ s'.maxLevel = s.maxLevel := by
  obtain ⟨pre, post, hsp⟩ := hs.exists_split key
  obtain ⟨update, hrun, hlen, hupd, -⟩ := descend_spec hs hsp s.currentLevel
    (List.replicate s.maxLevel none) hs.level.2 List.length_replicate
  rw [hs.pred_above hsp (Nat.le_refl _)] at hrun
  obtain ⟨n, hn, hread⟩ := read_pred_zero hs hsp
  obtain ⟨s', newLevel, hins, hi⟩ := insert_run hs hsp value hlen hupd
  rw [SkipList.put, hrun, upsert_contents hsp]
  simp only [ok_bind, hn, hread]
  cases post with
  | nil =>
      refine ⟨s', _, hins, hs.inserted hsp (by simp) hi, ?_, hi.maxLevel⟩
      simp [contents, upsert]
  | cons t r =>
      have htop : t ∈ ts := hsp.eq ▸ List.mem_append_right _ List.mem_cons_self
      have hnlt : ¬ t.key < key := hsp.above t List.mem_cons_self
      obtain ⟨fwd, hnode, hflen⟩ := hs.node t htop
      simp only [List.map_cons, List.head?_cons, deref_of_nodes hnode, ok_bind]
      by_cases hk : t.key = key
      · rw [if_pos hk]
        refine ⟨_, _, rfl, hs.stored hsp.eq hnode value, ?_, rfl⟩
        simp [contents, upsert, hk]
      · rw [if_neg hk]
        have hsorted := hs.sorted
        rw [hsp.eq] at hsorted
        have hr : ∀ u ∈ r, t.key < u.key :=
          (List.pairwise_cons.mp (List.pairwise_append.mp hsorted).2.1).1
        have hkt : key < t.key := lt_of_le_of_ne (not_lt.mp hnlt) (Ne.symm hk)
        refine ⟨s', _, hins, hs.inserted hsp ?_ hi, ?_, hi.maxLevel⟩
        · intro u hu
          rcases List.mem_cons.mp hu with heq | hu'
          · rw [heq]
            exact hkt
          · exact hkt.trans (hr u hu')
        · simp [contents, upsert, hnlt, hk]

end Writes

/-! ## Clearing -/

/-- The deleting loop visits each node of the bottom level once and deletes it. -/
theorem free_spec :
    ∀ (us : List Nat) (fuel c : Nat) (s : SkipList K V), (c :: us).Nodup →
      (∀ b ∈ c :: us, Readable s b 0) → Linked (s.next 0) c us → us.length < fuel →
      SkipList.free fuel s (some c)
        = .ok { s with nodes := fun b => if b ∈ c :: us then none else s.nodes b } := by
  intro us
  induction us with
  | nil =>
      intro fuel c s _ hread hlink hfuel
      obtain ⟨n, hn, hi⟩ := hread c List.mem_cons_self
      have hnext : s.next 0 c = none := hlink
      cases fuel with
      | zero => omega
      | succ fuel =>
          simp only [SkipList.free, deref_of_nodes hn, ok_bind, forwardAt_eq_next hn hi, hnext,
            List.mem_singleton]
          cases fuel <;> rfl
  | cons d us ih =>
      intro fuel c s hnd hread hlink hfuel
      obtain ⟨hc, hnd'⟩ := List.nodup_cons.mp hnd
      obtain ⟨n, hn, hi⟩ := hread c List.mem_cons_self
      have hnext : s.next 0 c = some d := hlink.1
      have hkeep : ∀ b ∈ d :: us, b ≠ c := fun b hb heq => hc (heq ▸ hb)
      cases fuel with
      | zero => omega
      | succ fuel =>
          simp only [SkipList.free, deref_of_nodes hn, ok_bind, forwardAt_eq_next hn hi, hnext]
          rw [ih fuel d _ hnd' ?_ ?_ (by simpa using hfuel)]
          · congr 2
            funext b
            by_cases hb : b = c <;> simp [hb]
          · intro b hb
            obtain ⟨m, hm, him⟩ := hread b (List.mem_cons_of_mem _ hb)
            exact ⟨m, (if_neg (hkeep b hb)).trans hm, him⟩
          · refine linked_congr ?_ hlink.2
            intro b hb
            simp only [SkipList.next, if_neg (hkeep b hb)]

/-- The loop over the head's pointers. -/
theorem resetHead_spec :
    ∀ (n i : Nat) (s : SkipList K V), (∀ j, i ≤ j → j < i + n → Readable s s.head j) →
      ∃ s', SkipList.resetHead n i s = .ok s' ∧ Relinked s s'
        ∧ ∀ j b, s'.next j b
          = if (i ≤ j ∧ j < i + n) ∧ b = s.head then none else s.next j b := by
  intro n
  induction n with
  | zero =>
      intro i s _
      refine ⟨s, rfl, Relinked.refl s, ?_⟩
      intro j b
      rw [if_neg (by omega)]
  | succ n ih =>
      intro i s hread
      obtain ⟨s₁, hrun₁, hrel₁, hnext₁⟩ :=
        setForward_spec none (hread i (Nat.le_refl i) (by omega))
      obtain ⟨s₂, hrun₂, hrel₂, hnext₂⟩ := ih (i + 1) s₁ (by
        intro j h1 h2
        rw [hrel₁.head]
        exact hrel₁.readable (hread j (by omega) (by omega)))
      refine ⟨s₂, ?_, hrel₁.trans hrel₂, ?_⟩
      · rw [SkipList.resetHead, hrun₁]
        exact hrun₂
      · intro j b
        rw [hnext₂, hnext₁, hrel₁.head]
        by_cases hb : b = s.head
        · by_cases hj : j = i
          · have h1 : ¬ (i + 1 ≤ j ∧ j < i + 1 + n) := by omega
            have h2 : i ≤ j ∧ j < i + (n + 1) := by omega
            simp [hb, hj]
          · have h1 : (i + 1 ≤ j ∧ j < i + 1 + n) ↔ (i ≤ j ∧ j < i + (n + 1)) := by omega
            simp only [hb, hj, h1, false_and, if_false]
        · simp [hb]

/-- **The first loop of `clear`**: the nodes are gone, the head is untouched. -/
theorem free_all [LinearOrder K] {s : SkipList K V} {ts : List (Tower K V)} (hs : Shape s ts) :
    SkipList.free s.fresh s (ts.map Tower.addr).head?
      = .ok { s with nodes := fun b => if b ∈ ts.map Tower.addr then none else s.nodes b } := by
  have hnd := (List.nodup_cons.mp hs.nodup).2
  have hreads : ∀ b ∈ ts.map Tower.addr, Readable s b 0 := by
    intro b hb
    obtain ⟨t, ht, heq⟩ := List.mem_map.mp hb
    exact heq ▸ hs.readable_tower ht (hs.height t ht).1
  have hlen : (ts.map Tower.addr).length ≤ s.fresh := by
    rw [List.length_map]
    exact hs.length_le_fresh
  have hlink := hs.linked_zero
  cases hm : ts.map Tower.addr with
  | nil =>
      have hnone : SkipList.free s.fresh s none = .ok s := by
        cases s.fresh <;> rfl
      simpa using hnone
  | cons c us =>
      rw [hm] at hnd hreads hlink hlen
      exact free_spec us s.fresh c s hnd hreads hlink.2 (Nat.lt_of_succ_le hlen)

/-- **`clear` leaves an empty list of the same height.** -/
theorem clear_spec [LinearOrder K] {s : SkipList K V} {ts : List (Tower K V)}
    (hs : Shape s ts) :
    ∃ s', s.clear = .ok s' ∧ Shape s' ([] : List (Tower K V)) ∧ s'.maxLevel = s.maxLevel := by
  obtain ⟨hnode, hderef, hread⟩ := hs.read_head
  have hhead := (List.nodup_cons.mp hs.nodup).1
  have hfree := free_all hs
  obtain ⟨n, hn, hnlen⟩ := hs.head
  obtain ⟨s₁, hs₁⟩ : ∃ s₁ : SkipList K V, s₁
    = { s with nodes := fun b => if b ∈ ts.map Tower.addr then none else s.nodes b } := ⟨_, rfl⟩
  have hn₁ : s₁.nodes s.head = some n := by
    rw [hs₁]
    exact (if_neg hhead).trans hn
  have hfields : s₁.head = s.head ∧ s₁.maxLevel = s.maxLevel ∧ s₁.fresh = s.fresh := by
    rw [hs₁]
    exact ⟨rfl, rfl, rfl⟩
  obtain ⟨s₂, hrun₂, hrel₂, hnext₂⟩ := resetHead_spec s₁.maxLevel 0 s₁ (by
    intro j _ hj
    refine ⟨n, hfields.1 ▸ hn₁, ?_⟩
    have := hfields.2.1
    omega)
  refine ⟨{ s₂ with currentLevel := 1, nodeCount := 0 }, ?_, ?_,
    hrel₂.maxLevel.trans hfields.2.1⟩
  · rw [SkipList.clear]
    simp only [hderef, ok_bind, hread, hfree, ← hs₁, hrun₂]
    rfl
  · have hbound := hs.bound _ List.mem_cons_self
    refine ⟨List.nodup_cons.mpr ⟨by simp, List.nodup_nil⟩, ?_, ?_, by simp, by simp, ?_, List.Pairwise.nil, ?_, rfl⟩
    · intro a ha
      rw [List.mem_singleton.mp ha]
      show s₂.head < s₂.fresh
      rw [hrel₂.head, hrel₂.fresh, hfields.1, hfields.2.2]
      exact hbound
    · obtain ⟨fwd, hn₂, hlen₂⟩ := hrel₂.nodes s.head n hn₁
      refine ⟨⟨n.key, n.value, fwd⟩, ?_, ?_⟩
      · show s₂.nodes s₂.head = _
        rw [hrel₂.head, hfields.1, hn₂]
      · show fwd.length = s₂.maxLevel
        rw [hlen₂, hrel₂.maxLevel, hfields.2.1, hnlen]
    · have hlev := hs.level
      refine ⟨Nat.one_pos, ?_⟩
      show 1 ≤ s₂.maxLevel
      rw [hrel₂.maxLevel, hfields.2.1]
      omega
    · intro j hj
      show s₂.next j s₂.head = none
      have hj' : j < s₁.maxLevel := by
        rw [← hrel₂.maxLevel]
        exact hj
      rw [hnext₂, hrel₂.head, if_pos ⟨⟨Nat.zero_le _, by omega⟩, rfl⟩]

/-! ## What a client of the list sees -/

section Client

variable [LinearOrder K]

/-- The list holds the entries `l`. -/
def Models (s : SkipList K V) (l : List (K × V)) : Prop :=
  ∃ ts, Shape s ts ∧ contents ts = l

theorem Models.keySorted {s : SkipList K V} {l : List (K × V)} (h : Models s l) :
    KeySorted l := by
  obtain ⟨ts, hs, rfl⟩ := h
  exact hs.keySorted

/-- A new list is empty, if it has a level at all. -/
theorem models_empty [Inhabited K] [Inhabited V] {maxLevel : Nat} (h : 1 ≤ maxLevel)
    (draws : Nat → Bool) : Models (SkipList.empty (K := K) (V := V) maxLevel draws) [] := by
  refine ⟨[], ⟨List.nodup_cons.mpr ⟨by simp, List.nodup_nil⟩, ?_, ⟨_, rfl, List.length_replicate⟩, by simp,
    by simp, ⟨Nat.one_pos, h⟩, List.Pairwise.nil, ?_, rfl⟩, rfl⟩
  · intro a ha
    rw [List.mem_singleton.mp ha]
    exact Nat.one_pos
  · intro j hj
    have hj' : j < maxLevel := hj
    show SkipList.next _ j 0 = none
    simp [SkipList.next, SkipList.empty, hj']

/-- **`put`**, for any height of the new tower. -/
theorem models_put {s : SkipList K V} {l : List (K × V)} (h : Models s l) (key : K) (value : V) :
    ∃ s', s.put key value = .ok s' ∧ Models s' (upsert key value l)
      ∧ s'.maxLevel = s.maxLevel := by
  obtain ⟨ts, hs, rfl⟩ := h
  obtain ⟨s', ts', hrun, hs', hcont, hmax⟩ := put_spec hs key value
  exact ⟨s', hrun, ⟨ts', hs', hcont⟩, hmax⟩

theorem models_get {s : SkipList K V} {l : List (K × V)} (h : Models s l) (key : K) :
    s.get key = .ok (l.lookup key) := by
  obtain ⟨ts, hs, rfl⟩ := h
  exact get_spec hs key

theorem models_dumpAll {s : SkipList K V} {l : List (K × V)} (h : Models s l) :
    s.dumpAll = .ok l := by
  obtain ⟨ts, hs, rfl⟩ := h
  exact dumpAll_spec hs

theorem models_size {s : SkipList K V} {l : List (K × V)} (h : Models s l) :
    s.size = l.length := by
  obtain ⟨ts, hs, rfl⟩ := h
  exact hs.count.trans (List.length_map _).symm

theorem models_clear {s : SkipList K V} {l : List (K × V)} (h : Models s l) :
    ∃ s', s.clear = .ok s' ∧ Models s' [] ∧ s'.maxLevel = s.maxLevel := by
  obtain ⟨ts, hs, rfl⟩ := h
  obtain ⟨s', hrun, hs', hmax⟩ := clear_spec hs
  exact ⟨s', hrun, ⟨[], hs', rfl⟩, hmax⟩

/-- **Walking on from `find_greater_or_equal`** visits the entries at or above
    the key. -/
theorem models_walk {s : SkipList K V} {l : List (K × V)} (h : Models s l) (key : K) :
    (s.findGreaterOrEqual key >>= fun p => s.walk s.fresh p)
      = .ok (l.dropWhile (fun b => b.1 < key)) := by
  obtain ⟨ts, hs, rfl⟩ := h
  obtain ⟨pre, post, hsp⟩ := hs.exists_split key
  rw [walk_findGreaterOrEqual hs hsp, hsp.eq, contents, contents, List.map_append,
    List.dropWhile_append_of_pos]
  · cases post with
    | nil => rfl
    | cons t r =>
        have ht := hsp.above t List.mem_cons_self
        rw [List.map_cons, List.dropWhile_cons_of_neg (by simpa using ht)]
  · intro b hb
    obtain ⟨t, ht, heq⟩ := List.mem_map.mp hb
    rw [← heq]
    simpa using hsp.below t ht

end Client

end KvSkipList
