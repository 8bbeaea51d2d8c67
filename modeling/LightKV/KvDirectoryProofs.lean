import LightKV.KvBytesProofs
import LightKV.OverlayProofs
import LightKV.PositionalProofs
import Mathlib.Data.List.TakeWhile

/-! # The data directory

    A directory is a list of files by name, kept in the order of the names; the
    engine names its tables `000001.sst` and its logs `wal_000001.log`, reads
    the numbers back with `std::stoull`, and relies on the names sorting as the
    numbers do.  `std::setw(6)` pads the numbers and does not bound them: of two
    numbers the smaller one sorts first exactly when it is at most the other cut
    to as many digits (`getSstPath_lt_iff`, `getWalPath_lt_iff`). -/

namespace KvDirectory

open KvBytes Overlay Positional

/-- The files of a data directory, by their names inside it. -/
abbrev Directory := List (Bytes × Bytes)

/-- `fs::remove`. -/
def remove (dir : Directory) (name : Bytes) : Directory := discard name dir

/-! ## The code -/

/-- `'.'`. -/
def dot : UInt8 := 46

/-- `".sst"`. -/
def dotSst : Bytes := [46, 115, 115, 116]

/-- `".log"`. -/
def dotLog : Bytes := [46, 108, 111, 103]

/-- `"wal_"`. -/
def walPrefix : Bytes := [119, 97, 108, 95]

/-- The character of a decimal digit. -/
def digitChar (d : Nat) : UInt8 := UInt8.ofNat (48 + d)

/-- `std::setw(6) << std::setfill('0') << n`. -/
def padded (n : Nat) : Bytes := (((Nat.digits 10 n).reverse).leftpad 6 0).map digitChar

/-- `GetSstPath`. -/
def getSstPath (seqNum : Nat) : Bytes := padded seqNum ++ dotSst

/-- `GetWalPath`. -/
def getWalPath (seqNum : Nat) : Bytes := walPrefix ++ padded seqNum ++ dotLog

/-- `path::extension`: from the last dot on, unless the name has none or starts
    with it. -/
def extension (name : Bytes) : Bytes :=
  let tail := (name.reverse.takeWhile (· ≠ dot)).reverse
  if tail.length + 1 < name.length then dot :: tail else []

/-- `path::stem`. -/
def stem (name : Bytes) : Bytes := name.take (name.length - (extension name).length)

/-- Whether a character is a decimal digit. -/
def isDigit (c : UInt8) : Bool := 48 ≤ c && c ≤ 57

/-- `std::stoull` on a name without blanks or a sign; `none` when it throws.
    Numbers are unbounded here, as all of the engine's counters are. -/
def stoull (s : Bytes) : Option Nat :=
  let digits := s.takeWhile isDigit
  if digits.isEmpty then none else some (value 10 (digits.map (fun c => c.toNat - 48)))

/-- `entry.path().extension() == ".sst"`. -/
def isSstName (name : Bytes) : Bool := extension name == dotSst

/-- `extension() == ".log" && filename().rfind("wal_", 0) == 0`. -/
def isWalName (name : Bytes) : Bool := extension name == dotLog && walPrefix.isPrefixOf name

/-! ## Numbers in names -/

/-- The digits of a padded number. -/
def paddedDigits (n : Nat) : List Nat := ((Nat.digits 10 n).reverse).leftpad 6 0

theorem paddedDigits_lt {n d : Nat} (h : d ∈ paddedDigits n) : d < 10 := by
  rcases List.mem_append.mp h with h' | h'
  · rw [(List.mem_replicate.mp h').2]
    decide
  · exact Nat.digits_lt_base (by decide) (List.mem_reverse.mp h')

theorem value_paddedDigits (n : Nat) : value 10 (paddedDigits n) = n := by
  rw [paddedDigits, List.leftpad, value_replicate_zero_append, value_reverse, Nat.ofDigits_digits]

/-- How many digits a padded number has. -/
def width (n : Nat) : Nat := max 6 (Nat.digits 10 n).length

theorem length_paddedDigits (n : Nat) : (paddedDigits n).length = width n := by
  rw [paddedDigits, List.leftpad, List.length_append, List.length_replicate, List.length_reverse,
    width]
  omega

theorem width_le_width {m n : Nat} (h : m ≤ n) : width m ≤ width n :=
  max_le_max_left 6 (Nat.le_length_digits_le 10 m n h)

theorem paddedDigits_ne_nil (n : Nat) : paddedDigits n ≠ [] := by
  intro h
  have hlen := congrArg List.length h
  rw [length_paddedDigits, List.length_nil] at hlen
  exact absurd hlen (Nat.ne_of_gt (Nat.lt_of_lt_of_le (by decide) (Nat.le_max_left 6 _)))

theorem padded_ne_nil (n : Nat) : padded n ≠ [] :=
  fun h => paddedDigits_ne_nil n (List.map_eq_nil_iff.mp h)

theorem toNat_digitChar {d : Nat} (h : d < 10) : (digitChar d).toNat = 48 + d := by
  rw [digitChar, UInt8.toNat_ofNat']
  omega

theorem digitChar_lt {x y : Nat} (hx : x < 10) (hy : y < 10) (h : x < y) :
    digitChar x < digitChar y := by
  rw [UInt8.lt_iff_toNat_lt, toNat_digitChar hx, toNat_digitChar hy]
  omega

theorem isDigit_digitChar {d : Nat} (h : d < 10) : isDigit (digitChar d) = true := by
  have := toNat_digitChar h
  simp only [isDigit, Bool.and_eq_true, decide_eq_true_eq, UInt8.le_iff_toNat_le]
  simp only [UInt8.reduceToNat]
  omega

theorem isDigit_of_mem_padded {n : Nat} {c : UInt8} (h : c ∈ padded n) : isDigit c = true := by
  obtain ⟨d, hd, rfl⟩ := List.mem_map.mp h
  exact isDigit_digitChar (paddedDigits_lt hd)

/-- **`stoull` reads a padded number back**, whatever follows it. -/
theorem stoull_padded (n : Nat) : stoull (padded n) = some n := by
  have htake : (padded n).takeWhile isDigit = padded n :=
    List.takeWhile_eq_self_iff.mpr (fun c hc => isDigit_of_mem_padded hc)
  have hne : (padded n).isEmpty = false := by
    simpa using padded_ne_nil n
  have hback : (padded n).map (fun c => c.toNat - 48) = paddedDigits n := by
    rw [padded, List.map_map]
    refine (List.map_congr_left ?_).trans (List.map_id _)
    intro d hd
    have := toNat_digitChar (paddedDigits_lt hd)
    show (digitChar d).toNat - 48 = d
    omega
  simp only [stoull, htake, hne, Bool.false_eq_true, if_false, hback, value_paddedDigits]

theorem padded_injective {m n : Nat} (h : padded m = padded n) : m = n := by
  have := congrArg stoull h
  rw [stoull_padded, stoull_padded] at this
  exact Option.some.inj this

theorem length_padded (n : Nat) : (padded n).length = width n := by
  rw [padded, List.length_map]
  exact length_paddedDigits n

/-- The first digits of a padded number, against a number of as many digits. -/
theorem padded_lt_take_iff {m n : Nat} (h : width m ≤ width n) :
    (padded m < (padded n).take (width m) ↔ m < n / 10 ^ (width n - width m))
      ∧ ((padded n).take (width m) < padded m ↔ n / 10 ^ (width n - width m) < m) := by
  have htake : (padded n).take (width m) = ((paddedDigits n).take (width m)).map digitChar :=
    (List.map_take ..).symm
  have hlen : (paddedDigits m).length = ((paddedDigits n).take (width m)).length := by
    rw [List.length_take, length_paddedDigits, length_paddedDigits, Nat.min_eq_left h]
  have hm : ∀ d ∈ paddedDigits m, d < 10 := fun d => paddedDigits_lt
  have hn : ∀ d ∈ (paddedDigits n).take (width m), d < 10 :=
    fun d hd => paddedDigits_lt (List.mem_of_mem_take hd)
  have hquot : value 10 ((paddedDigits n).take (width m)) = n / 10 ^ (width n - width m) := by
    rw [value_take (fun d => paddedDigits_lt), value_paddedDigits, length_paddedDigits]
  have hchars : ∀ x y, x < 10 → y < 10 → x < y → digitChar x < digitChar y :=
    fun x y => digitChar_lt
  have hlt := map_lt_map_iff (by decide) hchars hlen hm hn
  have hgt := map_lt_map_iff (by decide) hchars hlen.symm hn hm
  rw [value_paddedDigits, hquot] at hlt hgt
  rw [htake]
  exact ⟨hlt, hgt⟩

/-- **Padded numbers in names**: the smaller number sorts first exactly when it is
    at most the larger one cut to as many digits. -/
theorem padded_append_lt_iff {m n : Nat} (h : m < n) (ext : Bytes) :
    padded m ++ dot :: ext < padded n ++ dot :: ext ↔ m ≤ n / 10 ^ (width n - width m) := by
  have hle := width_le_width h.le
  obtain ⟨hlt, hgt⟩ := padded_lt_take_iff hle
  have hlen : (padded m).length = ((padded n).take (width m)).length := by
    rw [List.length_take, length_padded, length_padded, Nat.min_eq_left hle]
  have heq : padded m = (padded n).take (width m) ↔ m = n / 10 ^ (width n - width m) := by
    constructor
    · intro he
      rw [← he] at hlt hgt
      have h1 := mt hlt.mpr (lt_irrefl _)
      have h2 := mt hgt.mpr (lt_irrefl _)
      omega
    · intro he
      have h1 : ¬ m < n / 10 ^ (width n - width m) := by omega
      have h2 : ¬ n / 10 ^ (width n - width m) < m := by omega
      exact le_antisymm (not_lt.mp (mt hgt.mp h2)) (not_lt.mp (mt hlt.mp h1))
  have hsplit : padded n ++ dot :: ext
      = (padded n).take (width m) ++ ((padded n).drop (width m) ++ dot :: ext) := by
    rw [← List.append_assoc, List.take_append_drop]
  rw [hsplit, append_lt_append_iff hlen, hlt, heq]
  cases hrest : (padded n).drop (width m) with
  | nil =>
      -- as many digits: the numbers decide
      have hwidth : width n ≤ width m := by
        rw [← length_padded n]
        exact List.drop_eq_nil_iff.mp hrest
      rw [Nat.sub_eq_zero_of_le hwidth, Nat.pow_zero, Nat.div_one]
      simp only [h, h.le, true_or]
  | cons c rest =>
      -- more digits: a digit stands where the shorter name has its dot
      have hdigit : isDigit c = true :=
        isDigit_of_mem_padded (List.mem_of_mem_drop (hrest ▸ List.mem_cons_self))
      have hdot : dot < c := by
        rw [isDigit, Bool.and_eq_true, decide_eq_true_eq] at hdigit
        exact lt_of_lt_of_le (by decide) hdigit.1
      have hext : dot :: ext < c :: rest ++ dot :: ext := List.cons_lt_cons_iff.mpr (Or.inl hdot)
      simp only [hext, and_true]
      exact (Nat.le_iff_lt_or_eq).symm

/-! ## Table and log names -/

theorem extension_append {name ext : Bytes} (hname : name ≠ []) (hext : dot ∉ ext) :
    extension (name ++ dot :: ext) = dot :: ext := by
  have htake : (name ++ dot :: ext).reverse.takeWhile (· ≠ dot) = ext.reverse := by
    rw [List.reverse_append, List.reverse_cons, List.append_assoc,
      List.takeWhile_append_of_pos]
    · simp
    · intro c hc
      rw [List.mem_reverse] at hc
      simpa using fun h : c = dot => hext (h ▸ hc)
  have hlen : ext.length + 1 < (name ++ dot :: ext).length := by
    have : 0 < name.length := List.length_pos_iff.mpr hname
    rw [List.length_append, List.length_cons]
    omega
  simp only [extension, htake, List.reverse_reverse, if_pos hlen]

theorem extension_getSstPath (n : Nat) : extension (getSstPath n) = dotSst :=
  extension_append (padded_ne_nil n) (by decide)

theorem extension_getWalPath (n : Nat) : extension (getWalPath n) = dotLog :=
  extension_append (by simp [walPrefix]) (by decide)

@[simp] theorem isSstName_getSstPath (n : Nat) : isSstName (getSstPath n) = true := by
  rw [isSstName, extension_getSstPath]
  decide

@[simp] theorem isSstName_getWalPath (n : Nat) : isSstName (getWalPath n) = false := by
  rw [isSstName, extension_getWalPath]
  decide

@[simp] theorem isWalName_getWalPath (n : Nat) : isWalName (getWalPath n) = true := by
  rw [isWalName, extension_getWalPath, getWalPath, List.append_assoc]
  simp [List.isPrefixOf_iff_prefix]

@[simp] theorem isWalName_getSstPath (n : Nat) : isWalName (getSstPath n) = false := by
  rw [isWalName, extension_getSstPath]
  rfl

/-- The stem of a table's name is its number. -/
theorem stoull_stem_getSstPath (n : Nat) : stoull (stem (getSstPath n)) = some n := by
  have hstem : stem (getSstPath n) = padded n := by
    rw [stem, extension_getSstPath, getSstPath, List.length_append, Nat.add_sub_cancel]
    exact List.take_left
  rw [hstem, stoull_padded]

theorem getSstPath_injective {m n : Nat} (h : getSstPath m = getSstPath n) : m = n :=
  padded_injective (List.append_cancel_right h)

theorem getWalPath_injective {m n : Nat} (h : getWalPath m = getWalPath n) : m = n := by
  have h' : padded m ++ dotLog = padded n ++ dotLog := by
    rw [getWalPath, getWalPath, List.append_assoc, List.append_assoc] at h
    exact List.append_cancel_left h
  exact padded_injective (List.append_cancel_right h')

theorem getSstPath_ne_getWalPath (m n : Nat) : getSstPath m ≠ getWalPath n := by
  intro h
  have := congrArg isSstName h
  rw [isSstName_getSstPath, isSstName_getWalPath] at this
  cases this

/-- **Table names** against their numbers. -/
theorem getSstPath_lt_iff {m n : Nat} (h : m < n) :
    getSstPath m < getSstPath n ↔ m ≤ n / 10 ^ (width n - width m) :=
  padded_append_lt_iff h _

/-- **Log names** against their numbers. -/
theorem getWalPath_lt_iff {m n : Nat} (h : m < n) :
    getWalPath m < getWalPath n ↔ m ≤ n / 10 ^ (width n - width m) := by
  rw [getWalPath, getWalPath, List.append_assoc, List.append_assoc, append_lt_append_iff rfl]
  simp only [lt_irrefl, true_and, false_or]
  exact padded_append_lt_iff h _

/-- A number of six digits at most is below a million. -/
theorem lt_of_length_padded {n : Nat} (h : (padded n).length ≤ 6) : n < 10 ^ 6 := by
  rw [length_padded] at h
  exact (Nat.digits_length_le_iff (by decide) n).mp ((Nat.le_max_right 6 _).trans h)

theorem width_of_lt {n : Nat} (h : n < 10 ^ 6) : width n = 6 :=
  Nat.max_eq_left ((Nat.digits_length_le_iff (by decide) n).mpr h)

/-- Numbers below a million are not cut. -/
theorem le_cut_of_lt {m n : Nat} (hm : m < 10 ^ 6) (hn : n < 10 ^ 6) (h : m < n) :
    m ≤ n / 10 ^ (width n - width m) := by
  rw [width_of_lt hm, width_of_lt hn, Nat.sub_self, Nat.pow_zero, Nat.div_one]
  exact h.le

/-- **Table names below a million sort as numbers.** -/
theorem getSstPath_lt {m n : Nat} (hm : m < 10 ^ 6) (hn : n < 10 ^ 6) (h : m < n) :
    getSstPath m < getSstPath n :=
  (getSstPath_lt_iff h).mpr (le_cut_of_lt hm hn h)

/-- **Log names below a million sort as numbers.** -/
theorem getWalPath_lt {m n : Nat} (hm : m < 10 ^ 6) (hn : n < 10 ^ 6) (h : m < n) :
    getWalPath m < getWalPath n :=
  (getWalPath_lt_iff h).mpr (le_cut_of_lt hm hn h)

end KvDirectory
