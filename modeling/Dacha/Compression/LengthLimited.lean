import Mathlib
import Dacha.Common.Algorithms
import Dacha.Compression.Huffman

/-!
# `HuffmanTree::build_length_limited_tree` (`compression/src/huffman.rs:159-327`)

| here | there |
| --- | --- |
| `Coin`, `Package`, `SymbolLength`, `SymbolCount` | `:32-66` |
| `bumpCount` | an insert into `freqs_map` or `count_map`, both `HashMap<usize, usize>` (`:179-181`, `:287-289`) |
| `symbolFrequencies` | `freqs` (`:175-201`) |
| `denomination`, `buildDenomList` | `build_denom_list` (`:208-229`) |
| `package`, `comparePkg` | `package` and `compare_pkg` (`:232-256`) |
| `packageLevel`, `packageLevels` | the `for i in 0..max_code_length` loop (`:261-265`) |
| `desiredTotal`, `countCoins` | `desired_total` and the `while` loop (`:268-290`) |
| `packageMerge` | the function from `:258` to its end |
| `HuffmanTree.buildLengthLimitedTree` | the whole function |

Package-merge: coin list `i` holds a coin of every symbol, worth the symbol's frequency, of
denomination `2^i` in units of `2^-max_code_length`. Each pass merges a coin list into the
packages so far by value and pairs the result up. The first `freqs.len() - 1` packages of the last
pass weigh `(freqs.len() - 1) * 2^max_code_length`, and a symbol's code length is how many of its
coins they hold.

The denomination is `(1 << i) as usize` with an `i32` literal, so it is right up to `i = 30`
only: coin list 31 has denomination `2^64 - 2^31`, the sign bit extended by the cast, and a shift
by 32 panics. With a limit above 32, every input of two symbols or more panics
(`packageLevels_of_gt`). With a limit of 32, every coin of list 31 takes the running total past
the target, while all coins of the lists below weigh less than it (`sum_low_coins_le`), so the
count never lands on the target and no input gets a code.

A panic is `none`: the shifts and the `usize` additions and products check overflow, as in a
debug build. Package values are computed in `Nat`: a package holds a coin at most once, so its
value is at most `max_code_length * symbols.len()`. A hash map is a list of entries in the order
their keys came in; what is read out of one is sorted by a key it holds once, so the order does not
show.
-/

namespace Dacha.Compression

open Dacha.Common

structure Coin where
  denomination : Nat
  symbol : Nat
  deriving DecidableEq, Repr

structure Package where
  value : Nat
  inner : List Coin
  deriving DecidableEq, Repr

structure SymbolLength where
  symbol : Nat
  length : Nat
  deriving DecidableEq, Repr

structure SymbolCount where
  symbol : Nat
  count : Nat
  deriving DecidableEq, Repr

/-! ## Frequencies -/

/-- `let mut f = map.get(s).cloned().unwrap_or(0); f += 1; map.insert(s, f)`. -/
def bumpCount : List (Nat × Nat) → Nat → List (Nat × Nat)
  | [], s => [(s, 1)]
  | (k, c) :: rest, s => if k = s then (k, c + 1) :: rest else (k, c) :: bumpCount rest s

/-- The order `freqs` is sorted in: by count, then by symbol. -/
def freqLe (a b : SymbolCount) : Bool :=
  decide (a.count < b.count ∨ a.count = b.count ∧ a.symbol ≤ b.symbol)

/-- `freqs`: every distinct symbol once, with how often it occurs. -/
def symbolFrequencies (symbols : List Nat) : List SymbolCount :=
  ((symbols.foldl bumpCount []).map fun e => (⟨e.1, e.2⟩ : SymbolCount)).mergeSort freqLe

/-! ## Coins and packages -/

/-- `(1 << i) as usize`: the literal `1` is an `i32`, whose bit 31 is the sign that the cast
extends; a shift by 32 or more panics. -/
def denomination (i : Nat) : Option Nat :=
  if i < 32 then some ((((1 : Int32) <<< Int32.ofNat i).toInt % 2 ^ 64).toNat) else none

/-- `build_denom_list(i)`: a package of one coin for each entry of `freqs`, valued at its count. -/
def buildDenomList (freqs : List SymbolCount) (i : Nat) : Option (List Package) :=
  freqs.mapM fun f => do
    let d ← denomination i
    pure ⟨f.count, [⟨d, f.symbol⟩]⟩

/-- `package`: the elements two by two into one package each, values added and coins joined; an
odd last element is dropped. -/
def package : List Package → List Package
  | p :: p2 :: rest => ⟨p.value + p2.value, p.inner ++ p2.inner⟩ :: package rest
  | _ => []

/-- `compare_pkg`: by value, two packages of one value ordered as `Less`. -/
def comparePkg (a b : Package) : Ordering :=
  match compare a.value b.value with
  | .eq => .lt
  | o => o

/-- One pass of the `for` loop: coin list `i` merged into the list, then packaged. -/
def packageLevel (freqs : List SymbolCount) (list : List Package) (i : Nat) :
    Option (List Package) := do
  let denom ← buildDenomList freqs i
  pure (package (mergeBy comparePkg list denom))

/-- The `for i in 0..max_code_length` loop, from the empty list. -/
def packageLevels (freqs : List SymbolCount) (maxCodeLength : Nat) : Option (List Package) :=
  (List.range maxCodeLength).foldlM (packageLevel freqs) []

/-- `(freqs.len() - 1) * (1 << max_code_length)` in `usize`. -/
def desiredTotal (n maxCodeLength : Nat) : Option Nat :=
  if maxCodeLength < 64 ∧ (n - 1) * 2 ^ maxCodeLength < 2 ^ 64 then
    some ((n - 1) * 2 ^ maxCodeLength)
  else none

/-- The `while total < desired_total` loop over the packages' coins in order: the total so far and
how many coins of each symbol it took. -/
def countCoins (desired : Nat) : List Coin → Nat → List (Nat × Nat) →
    Option (Nat × List (Nat × Nat))
  | [], total, counts => some (total, counts)
  | c :: cs, total, counts =>
    if total < desired then
      if total + c.denomination < 2 ^ 64 then
        countCoins desired cs (total + c.denomination) (bumpCount counts c.symbol)
      else none
    else some (total, counts)

/-- `build_length_limited_tree` from the sorted frequencies on. -/
def packageMerge (freqs : List SymbolCount) (maxCodeLength : Nat) :
    Option (Except String (List SymbolLength)) := do
  let list ← packageLevels freqs maxCodeLength
  let desired ← desiredTotal freqs.length maxCodeLength
  let (total, countMap) ← countCoins desired (list.flatMap Package.inner) 0 []
  if total ≠ desired then return .error "Failed"
  let lens := countMap.map fun e => (⟨e.1, e.2⟩ : SymbolLength)
  if lens.length ≠ freqs.length then
    return .error ("Failed 2: " ++ toString lens.length ++ " " ++ toString freqs.length)
  if lens.any (·.length > maxCodeLength) then return .error "Some lengths ended up too large"
  return .ok (lens.mergeSort fun a b => decide (a.symbol ≤ b.symbol))

def HuffmanTree.buildLengthLimitedTree (symbols : List Nat) (maxCodeLength : Nat) :
    Option (Except String (List SymbolLength)) :=
  match symbols with
  | [] => some (.ok [])
  | [s] => some (.ok [⟨s, 1⟩])
  | _ :: _ :: _ => packageMerge (symbolFrequencies symbols) maxCodeLength

/-! ## The frequency map -/

theorem keys_bumpCount (m : List (Nat × Nat)) (s : Nat) :
    (bumpCount m s).map Prod.fst =
      if s ∈ m.map Prod.fst then m.map Prod.fst else m.map Prod.fst ++ [s] := by
  induction m with
  | nil => simp [bumpCount]
  | cons e rest ih =>
    obtain ⟨k, c⟩ := e
    by_cases hk : k = s
    · simp [bumpCount, hk]
    · simp only [bumpCount, if_neg hk, List.map_cons, ih, List.mem_cons]
      by_cases hs : s ∈ rest.map Prod.fst <;> simp [hs, Ne.symm hk]

theorem mem_keys_foldl_bumpCount (l : List Nat) (m : List (Nat × Nat)) (k : Nat) :
    k ∈ (l.foldl bumpCount m).map Prod.fst ↔ k ∈ m.map Prod.fst ∨ k ∈ l := by
  induction l generalizing m with
  | nil => simp
  | cons s l ih =>
    rw [List.foldl_cons, ih, keys_bumpCount]
    by_cases hs : s ∈ m.map Prod.fst
    · simp only [hs, if_true, List.mem_cons]
      constructor
      · rintro (h | h)
        · exact .inl h
        · exact .inr (.inr h)
      · rintro (h | rfl | h)
        · exact .inl h
        · exact .inl hs
        · exact .inr h
    · simp [hs, or_assoc]

theorem nodup_keys_foldl_bumpCount (l : List Nat) {m : List (Nat × Nat)}
    (h : (m.map Prod.fst).Nodup) : ((l.foldl bumpCount m).map Prod.fst).Nodup := by
  induction l generalizing m with
  | nil => exact h
  | cons s l ih =>
    apply ih
    rw [keys_bumpCount]
    split_ifs with hs
    · exact h
    · exact h.append (List.nodup_singleton s) (by simpa using hs)

theorem perm_symbolFrequencies (symbols : List Nat) :
    ((symbolFrequencies symbols).map SymbolCount.symbol).Perm
      ((symbols.foldl bumpCount []).map Prod.fst) := by
  have h := (List.mergeSort_perm ((symbols.foldl bumpCount []).map
    fun e => (⟨e.1, e.2⟩ : SymbolCount)) freqLe).map SymbolCount.symbol
  simpa [symbolFrequencies, List.map_map, Function.comp_def] using h

/-- `freqs` holds each symbol once. -/
theorem nodup_symbolFrequencies (symbols : List Nat) :
    ((symbolFrequencies symbols).map SymbolCount.symbol).Nodup :=
  (perm_symbolFrequencies symbols).nodup_iff.mpr (nodup_keys_foldl_bumpCount symbols List.nodup_nil)

/-- `freqs` holds the symbols of the input and no others. -/
theorem mem_symbolFrequencies (symbols : List Nat) (s : Nat) :
    s ∈ (symbolFrequencies symbols).map SymbolCount.symbol ↔ s ∈ symbols := by
  rw [(perm_symbolFrequencies symbols).mem_iff, mem_keys_foldl_bumpCount]
  simp

/-- `freqs.len()` is the number of distinct symbols. -/
theorem length_symbolFrequencies (symbols : List Nat) :
    (symbolFrequencies symbols).length = symbols.toFinset.card := by
  have hset : ((symbolFrequencies symbols).map SymbolCount.symbol).toFinset = symbols.toFinset := by
    ext s
    simp only [List.mem_toFinset, mem_symbolFrequencies]
  calc (symbolFrequencies symbols).length
      = ((symbolFrequencies symbols).map SymbolCount.symbol).length := (List.length_map _).symm
    _ = ((symbolFrequencies symbols).map SymbolCount.symbol).toFinset.card :=
        (List.toFinset_card_of_nodup (nodup_symbolFrequencies symbols)).symm
    _ = symbols.toFinset.card := by rw [hset]

/-! ## Denominations -/

/-- Up to list 30 the shift is the power of two it stands for. -/
theorem denomination_of_lt {i : Nat} (h : i < 31) : denomination i = some (2 ^ i) := by
  have key : ∀ j : Fin 31, (((1 : Int32) <<< Int32.ofNat j).toInt % 2 ^ 64).toNat = 2 ^ j.val := by
    decide +kernel
  rw [denomination, if_pos (by omega)]
  exact congrArg some (key ⟨i, h⟩)

/-- List 31 shifts into the sign bit of the `i32`, which the cast to `usize` extends. -/
theorem denomination_thirty_one : denomination 31 = some (2 ^ 64 - 2 ^ 31) := by
  decide

theorem denomination_of_ge {i : Nat} (h : 32 ≤ i) : denomination i = none := by
  rw [denomination, if_neg (by omega)]

theorem denomination_isSome {i : Nat} (h : i < 32) : ∃ d, denomination i = some d :=
  ⟨_, if_pos h⟩

/-- No two coin lists share a denomination. -/
theorem denomination_inj {i j d : Nat} (hi : denomination i = some d)
    (hj : denomination j = some d) : i = j := by
  -- every denomination below list 31 is a power of two under `2^31`; list 31's is above
  have hval : ∀ {k}, denomination k = some d → (k < 31 ∧ d = 2 ^ k) ∨ (k = 31 ∧ d = 2 ^ 64 - 2 ^ 31) := by
    intro k hk
    rcases Nat.lt_or_ge k 31 with hlt | hge
    · rw [denomination_of_lt hlt, Option.some_inj] at hk
      exact .inl ⟨hlt, hk.symm⟩
    · rcases Nat.lt_or_ge k 32 with hlt' | hge'
      · obtain rfl : k = 31 := by omega
        rw [denomination_thirty_one, Option.some_inj] at hk
        exact .inr ⟨rfl, hk.symm⟩
      · rw [denomination_of_ge hge'] at hk
        cases hk
  have hsmall : ∀ {k}, k < 31 → 2 ^ k < 2 ^ 31 := fun hk => Nat.pow_lt_pow_right (by norm_num) hk
  rcases hval hi with ⟨hi31, rfl⟩ | ⟨rfl, rfl⟩ <;> rcases hval hj with ⟨hj31, hd⟩ | ⟨rfl, hd⟩
  · exact Nat.pow_right_injective (le_refl 2) hd
  · have := hsmall hi31
    omega
  · have := hsmall hj31
    omega
  · rfl

theorem buildDenomList_of_some {freqs : List SymbolCount} {i d : Nat}
    (h : denomination i = some d) :
    buildDenomList freqs i = some (freqs.map fun f => ⟨f.count, [⟨d, f.symbol⟩]⟩) := by
  simp only [buildDenomList, h, Option.bind_eq_bind, Option.bind_some]
  exact List.mapM_pure

theorem buildDenomList_of_none {freqs : List SymbolCount} {i : Nat} (hf : freqs ≠ [])
    (h : denomination i = none) : buildDenomList freqs i = none := by
  obtain ⟨f, fs, rfl⟩ := List.exists_cons_of_ne_nil hf
  simp [buildDenomList, List.mapM_cons, h]

/-! ## Passes -/

theorem comparePkg_ne_eq (a b : Package) : comparePkg a b ≠ .eq := by
  unfold comparePkg
  split <;> simp_all

/-- Packaging keeps the coins of the pairs it makes, in order, and drops an odd last element's. -/
theorem coins_package_sublist :
    ∀ list : List Package, ((package list).flatMap Package.inner).Sublist (list.flatMap Package.inner)
  | [] => by simp [package]
  | [_] => by simp [package]
  | p :: p2 :: rest => by
    simp only [package, List.flatMap_cons, List.append_assoc]
    exact ((coins_package_sublist rest).append_left _).append_left _

theorem packageLevels_zero (freqs : List SymbolCount) : packageLevels freqs 0 = some [] := rfl

theorem packageLevels_succ (freqs : List SymbolCount) (n : Nat) :
    packageLevels freqs (n + 1) = packageLevels freqs n >>= fun list => packageLevel freqs list n := by
  simp [packageLevels, List.range_succ, List.foldlM_append]

/-- With a limit above 32, the pass of list 32 panics, whatever the passes before it left. -/
theorem packageLevels_of_gt {freqs : List SymbolCount} (hf : freqs ≠ []) {n : Nat} (h : 32 < n) :
    packageLevels freqs n = none := by
  obtain ⟨m, rfl⟩ : ∃ m, n = m + 1 := ⟨n - 1, by omega⟩
  have hlevel : ∀ list, packageLevel freqs list m = none := fun list => by
    simp [packageLevel, buildDenomList_of_none hf (denomination_of_ge (show 32 ≤ m by omega))]
  rw [packageLevels_succ]
  cases packageLevels freqs m <;> simp [hlevel]

/-! ## The coins of the passes -/

/-- What the first `n` passes keep: the coins are distinct, each of a symbol of `freqs` and of the
denomination of one of the first `n` coin lists. -/
structure LevelInv (freqs : List SymbolCount) (n : Nat) (list : List Package) : Prop where
  nodup : (list.flatMap Package.inner).Nodup
  symbol_mem : ∀ c ∈ list.flatMap Package.inner, c.symbol ∈ freqs.map SymbolCount.symbol
  level : ∀ c ∈ list.flatMap Package.inner, ∃ j < n, denomination j = some c.denomination

theorem levelInv_nil (freqs : List SymbolCount) (n : Nat) : LevelInv freqs n [] :=
  ⟨by simp, by simp, by simp⟩

/-- One pass keeps the invariant: coin list `n` brings one new coin a symbol, of a denomination
no earlier list has. -/
theorem LevelInv.of_packageLevel {freqs : List SymbolCount} {n d : Nat} {list list' : List Package}
    (hf : (freqs.map SymbolCount.symbol).Nodup) (hd : denomination n = some d)
    (hinv : LevelInv freqs n list) (h : packageLevel freqs list n = some list') :
    LevelInv freqs (n + 1) list' := by
  simp only [packageLevel, buildDenomList_of_some hd, Option.bind_eq_bind, Option.bind_some,
    Option.pure_def, Option.some_inj] at h
  subst h
  set denom := freqs.map fun f => (⟨f.count, [⟨d, f.symbol⟩]⟩ : Package)
  set fresh := freqs.map fun f => (⟨d, f.symbol⟩ : Coin)
  have hfresh : denom.flatMap Package.inner = fresh := by
    simp only [denom, fresh, List.flatMap_map]
    exact List.map_eq_flatMap.symm
  have hperm : ((mergeBy comparePkg list denom).flatMap Package.inner).Perm
      (list.flatMap Package.inner ++ fresh) := by
    rw [← hfresh, ← List.flatMap_append]
    exact (perm_mergeBy comparePkg_ne_eq list denom).flatMap_right _
  have hsub := coins_package_sublist (mergeBy comparePkg list denom)
  have hmem : ∀ c ∈ (package (mergeBy comparePkg list denom)).flatMap Package.inner,
      c ∈ list.flatMap Package.inner ∨ c ∈ fresh := fun c hc =>
    List.mem_append.mp (hperm.mem_iff.mp (hsub.subset hc))
  have hfresh_mem : ∀ c ∈ fresh, c.symbol ∈ freqs.map SymbolCount.symbol ∧ c.denomination = d := by
    intro c hc
    obtain ⟨f, hf, rfl⟩ := List.mem_map.mp hc
    exact ⟨List.mem_map_of_mem hf, rfl⟩
  refine ⟨?_, ?_, ?_⟩
  · apply hsub.nodup
    rw [hperm.nodup_iff, List.nodup_append]
    refine ⟨hinv.nodup, List.Nodup.of_map Coin.symbol (by simpa [fresh, Function.comp_def] using hf), ?_⟩
    intro a ha b hb hab
    obtain ⟨j, hj, hjd⟩ := hinv.level a ha
    rw [hab, (hfresh_mem b hb).2] at hjd
    have := denomination_inj hjd hd
    omega
  · intro c hc
    rcases hmem c hc with hc | hc
    · exact hinv.symbol_mem c hc
    · exact (hfresh_mem c hc).1
  · intro c hc
    rcases hmem c hc with hc | hc
    · obtain ⟨j, hj, hjd⟩ := hinv.level c hc
      exact ⟨j, by omega, hjd⟩
    · exact ⟨n, by omega, by rw [(hfresh_mem c hc).2, hd]⟩

/-- Every pass up to list 31 keeps the invariant. -/
theorem levelInv_packageLevels {freqs : List SymbolCount} (hf : (freqs.map SymbolCount.symbol).Nodup) :
    ∀ n ≤ 32, ∀ list, packageLevels freqs n = some list → LevelInv freqs n list
  | 0, _, list, h => by
    rw [packageLevels_zero, Option.some_inj] at h
    subst h
    exact levelInv_nil freqs 0
  | n + 1, hn, list, h => by
    rw [packageLevels_succ] at h
    obtain ⟨list0, h0, h1⟩ := Option.bind_eq_some_iff.mp h
    obtain ⟨d, hd⟩ := denomination_isSome (show n < 32 by omega)
    exact (levelInv_packageLevels hf n (by omega) list0 h0).of_packageLevel hf hd h1

/-- A coin of the 32 passes is of list 31, or of a power of two below `2^31`. -/
theorem denomination_of_levelInv {freqs : List SymbolCount} {list : List Package}
    (hinv : LevelInv freqs 32 list) {c : Coin} (hc : c ∈ list.flatMap Package.inner) :
    c.denomination = 2 ^ 64 - 2 ^ 31 ∨ ∃ j < 31, c.denomination = 2 ^ j := by
  obtain ⟨j, hj, hjd⟩ := hinv.level c hc
  rcases Nat.lt_or_ge j 31 with hlt | hge
  · rw [denomination_of_lt hlt, Option.some_inj] at hjd
    exact .inr ⟨j, hlt, hjd.symm⟩
  · obtain rfl : j = 31 := by omega
    rw [denomination_thirty_one, Option.some_inj] at hjd
    exact .inl hjd.symm

/-- Distinct coins of symbols in `S` and of denominations `2^j` for `j < 31` weigh at most
`S.card * (2^31 - 1)`: there is at most one of each symbol and denomination. -/
theorem sum_low_coins_le {S : Finset Nat} {p : List Coin} (hp : p.Nodup)
    (hmem : ∀ c ∈ p, c.symbol ∈ S ∧ ∃ j < 31, c.denomination = 2 ^ j) :
    (p.map Coin.denomination).sum ≤ S.card * (2 ^ 31 - 1) := by
  let key : Coin → Nat × Nat := fun c => (c.symbol, Nat.log 2 c.denomination)
  have hkey : ∀ c ∈ p, key c ∈ S ×ˢ Finset.range 31 ∧ c.denomination = 2 ^ (key c).2 := by
    intro c hc
    obtain ⟨hs, j, hj, hjd⟩ := hmem c hc
    have hlog : (key c).2 = j := by
      simp only [key, hjd]
      exact Nat.log_pow (by norm_num) j
    refine ⟨Finset.mem_product.mpr ⟨hs, Finset.mem_range.mpr ?_⟩, ?_⟩
    · rw [hlog]
      exact hj
    · rw [hlog]
      exact hjd
  have hinj : Set.InjOn key p.toFinset := by
    intro a ha b hb hab
    have hda := (hkey a (List.mem_toFinset.mp ha)).2
    have hdb := (hkey b (List.mem_toFinset.mp hb)).2
    have hden : a.denomination = b.denomination := by
      rw [hda, hdb, congrArg Prod.snd hab]
    cases a
    cases b
    simp only [Coin.mk.injEq]
    exact ⟨hden, congrArg Prod.fst hab⟩
  have hsub : p.toFinset.image key ⊆ S ×ˢ Finset.range 31 := by
    intro x hx
    obtain ⟨c, hc, rfl⟩ := Finset.mem_image.mp hx
    exact (hkey c (List.mem_toFinset.mp hc)).1
  calc (p.map Coin.denomination).sum
      = ∑ c ∈ p.toFinset, c.denomination := (List.sum_toFinset _ hp).symm
    _ = ∑ x ∈ p.toFinset.image key, 2 ^ x.2 := by
        rw [Finset.sum_image hinj]
        exact Finset.sum_congr rfl fun c hc => (hkey c (List.mem_toFinset.mp hc)).2
    _ ≤ ∑ x ∈ S ×ˢ Finset.range 31, 2 ^ x.2 := Finset.sum_le_sum_of_subset hsub
    _ = S.card * (2 ^ 31 - 1) := by
        rw [Finset.sum_product]
        simp only [Finset.sum_const, Nat.geomSum_eq (le_refl 2), smul_eq_mul]
        norm_num

/-! ## Counting the coins -/

/-- The count takes a prefix of the coins, and its total is theirs. -/
theorem countCoins_prefix {desired : Nat} :
    ∀ {cs : List Coin} {total total' : Nat} {m m' : List (Nat × Nat)},
      countCoins desired cs total m = some (total', m') →
        ∃ p, p <+: cs ∧ total' = total + (p.map Coin.denomination).sum
  | [], total, total', m, m', h => by
    simp only [countCoins, Option.some_inj, Prod.mk.injEq] at h
    exact ⟨[], List.nil_prefix, by simp [h.1]⟩
  | c :: cs, total, total', m, m', h => by
    simp only [countCoins] at h
    split_ifs at h with hlt hfit
    · obtain ⟨p, hp, hsum⟩ := countCoins_prefix h
      refine ⟨c :: p, List.cons_prefix_cons.mpr ⟨rfl, hp⟩, ?_⟩
      rw [hsum, List.map_cons, List.sum_cons]
      omega
    · rw [Option.some_inj, Prod.mk.injEq] at h
      exact ⟨[], List.nil_prefix, by simp [h.1]⟩

/-- What an `Ok` of `packageMerge` went through: every pass, a target that fits, a count that
landed on it, one length a symbol of `freqs`, none above the limit, sorted by symbol. -/
theorem packageMerge_ok_inv {freqs : List SymbolCount} {L : Nat} {lens : List SymbolLength}
    (h : packageMerge freqs L = some (.ok lens)) :
    ∃ list desired countMap, packageLevels freqs L = some list ∧
      desiredTotal freqs.length L = some desired ∧
      countCoins desired (list.flatMap Package.inner) 0 [] = some (desired, countMap) ∧
      countMap.length = freqs.length ∧ (∀ e ∈ countMap, e.2 ≤ L) ∧
      lens = (countMap.map fun e => (⟨e.1, e.2⟩ : SymbolLength)).mergeSort
        fun a b => decide (a.symbol ≤ b.symbol) := by
  simp only [packageMerge, Option.bind_eq_bind, Option.pure_def] at h
  obtain ⟨list, hlist, h⟩ := Option.bind_eq_some_iff.mp h
  obtain ⟨desired, hdesired, h⟩ := Option.bind_eq_some_iff.mp h
  obtain ⟨⟨total, countMap⟩, hcount, h⟩ := Option.bind_eq_some_iff.mp h
  simp only at h
  split_ifs at h with htotal hlen hlarge
  · simp at h
  · simp at h
  · simp at h
  · simp only [Option.some_inj, Except.ok.injEq] at h
    simp only [List.length_map, List.any_eq_true, List.mem_map, decide_eq_true_eq, ne_eq,
      not_not] at htotal hlen hlarge
    refine ⟨list, desired, countMap, hlist, hdesired, ?_, hlen, ?_, h.symm⟩
    · subst htotal
      exact hcount
    · intro e he
      by_contra hgt
      exact hlarge ⟨⟨e.1, e.2⟩, ⟨e, he, rfl⟩, by simpa using hgt⟩

/-- With a limit of 32, the count never lands on its target: every coin of list 31 overshoots
it, and all the coins of the lists below fall short of it. -/
theorem packageMerge_thirty_two_not_ok {freqs : List SymbolCount}
    (hf : (freqs.map SymbolCount.symbol).Nodup) (hk : 2 ≤ freqs.length)
    (hk' : freqs.length ≤ 2 ^ 32) (lens : List SymbolLength) :
    packageMerge freqs 32 ≠ some (.ok lens) := by
  intro h
  obtain ⟨list, desired, countMap, hlist, hdesired, hcount, -⟩ := packageMerge_ok_inv h
  have hinv := levelInv_packageLevels hf 32 le_rfl list hlist
  have hdes : desired = (freqs.length - 1) * 2 ^ 32 := by
    simp only [desiredTotal] at hdesired
    split_ifs at hdesired
    exact (Option.some_inj.mp hdesired).symm
  obtain ⟨p, hp, hsum⟩ := countCoins_prefix hcount
  rw [Nat.zero_add] at hsum
  by_cases hbig : ∃ c ∈ p, c.denomination = 2 ^ 64 - 2 ^ 31
  · -- a coin of list 31 alone weighs more than the target
    obtain ⟨c, hc, hcd⟩ := hbig
    have hle : c.denomination ≤ (p.map Coin.denomination).sum :=
      List.le_sum_of_mem (List.mem_map_of_mem hc)
    have hdes_lt : desired < 2 ^ 64 - 2 ^ 31 := by
      rw [hdes]
      calc (freqs.length - 1) * 2 ^ 32 ≤ (2 ^ 32 - 1) * 2 ^ 32 := Nat.mul_le_mul_right _ (by omega)
        _ < 2 ^ 64 - 2 ^ 31 := by norm_num
    omega
  · -- the coins before list 31 weigh less than the target
    push Not at hbig
    have hlow : ∀ c ∈ p, c.symbol ∈ (freqs.map SymbolCount.symbol).toFinset ∧
        ∃ j < 31, c.denomination = 2 ^ j := by
      intro c hc
      have hc' := hp.sublist.subset hc
      refine ⟨List.mem_toFinset.mpr (hinv.symbol_mem c hc'), ?_⟩
      rcases denomination_of_levelInv hinv hc' with hd | hd
      · exact absurd hd (hbig c hc)
      · exact hd
    have hle := sum_low_coins_le (hinv.nodup.sublist hp.sublist) hlow
    rw [List.toFinset_card_of_nodup hf, List.length_map] at hle
    rw [hdes] at hsum
    omega

/-! ## The function -/

/-- From a limit of 32 on, no input of two distinct symbols or more gets a code: the limit 32
never lands on the count's target, and every limit above it panics at the shift of list 32. -/
theorem buildLengthLimitedTree_fails_from_32 {symbols : List Nat} {L : Nat}
    (hk : 2 ≤ symbols.toFinset.card) (hkL : symbols.toFinset.card ≤ 2 ^ L) (hL : 32 ≤ L)
    (lens : List SymbolLength) :
    HuffmanTree.buildLengthLimitedTree symbols L ≠ some (.ok lens) := by
  obtain ⟨s1, s2, rest, rfl⟩ : ∃ s1 s2 rest, symbols = s1 :: s2 :: rest := by
    match symbols, hk with
    | s1 :: s2 :: rest, _ => exact ⟨s1, s2, rest, rfl⟩
    | [], hk => simp at hk
    | [_], hk => simp at hk
  have hlen := length_symbolFrequencies (s1 :: s2 :: rest)
  rw [HuffmanTree.buildLengthLimitedTree]
  rcases Nat.lt_or_ge 32 L with hgt | hle
  · have hne : symbolFrequencies (s1 :: s2 :: rest) ≠ [] := by
      intro h
      rw [h, List.length_nil] at hlen
      omega
    simp [packageMerge, packageLevels_of_gt hne hgt]
  · obtain rfl : L = 32 := by omega
    exact packageMerge_thirty_two_not_ok (nodup_symbolFrequencies _) (by omega) (by omega) lens

theorem buildLengthLimitedTree_fails_two_symbols :
    HuffmanTree.buildLengthLimitedTree [0, 1] 32 ≠ some (.ok [⟨0, 1⟩, ⟨1, 1⟩]) :=
  buildLengthLimitedTree_fails_from_32 (by decide) (by decide) le_rfl _

end Dacha.Compression
