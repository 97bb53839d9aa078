import DistributedColoring.AddGraph
import Mathlib.Data.List.Sort

set_option autoImplicit false

/- `fetch_keys` of the clients, and what it makes of the keys of `add_graph`. -/
namespace DistributedColoring

open CText

/-- The patterns of KEYS, as far as the clients use them: a star is any text. -/
def stringmatch : Text → Text → Bool
  | [], key => key.isEmpty
  | c :: pattern, key =>
      if c = '*' then key.tails.any (stringmatch pattern)
      else key.head? = some c && stringmatch pattern key.tail

/-- A reply to KEYS lists the matching keys once each, in any order. -/
def IsKeys (db : Db) (pattern : Text) (reply : List Text) : Prop :=
  reply.Nodup ∧ ∀ key, key ∈ reply ↔ db key ≠ none ∧ stringmatch pattern key = true

/-- The text before the first occurrence of `suffix`. -/
def cutSuffix (suffix : Text) : Text → Text
  | [] => []
  | c :: rest => if suffix.isPrefixOf (c :: rest) then [] else c :: cutSuffix suffix rest

/-- `atoi(strchr(key, '_') + 1)` -/
def keyNumber (key : Text) : ℤ := atoi ((key.dropWhile (· ≠ '_')).drop 1)

def compareKeys (a b : Text) : ℤ := toInt (keyNumber a - keyNumber b)

def neighboursPattern : Text := "node_*_neighbours".toList

/-- `fetch_keys(context, "node_*_neighbours", &key_count)` on a reply to KEYS. -/
def fetchKeys (reply : List Text) : List Text :=
  (reply.map (cutSuffix "_neighbours".toList)).insertionSort fun a b => compareKeys a b ≤ 0

def nodeName (v : ℤ) : Text := "node_".toList ++ decimal v

theorem stringmatch_literal {literal : Text} (plain : '*' ∉ literal) (pattern key : Text) :
    stringmatch (literal ++ pattern) key = true ↔
      ∃ rest, key = literal ++ rest ∧ stringmatch pattern rest = true := by
  induction literal generalizing key with
  | nil => simp
  | cons c literal ih =>
      have notStar : c ≠ '*' := fun same => plain (by simp [same])
      have plainRest : '*' ∉ literal := fun member => plain (List.mem_cons_of_mem c member)
      rw [List.cons_append, stringmatch, if_neg notStar]
      cases key with
      | nil => simp
      | cons d key =>
          simp only [List.head?_cons, List.tail_cons, Option.some.injEq, Bool.and_eq_true,
            decide_eq_true_eq, ih plainRest, List.cons_append, List.cons.injEq]
          constructor
          · intro ⟨same, rest, split, matched⟩
            exact ⟨rest, ⟨same, split⟩, matched⟩
          · intro ⟨rest, ⟨same, split⟩, matched⟩
            exact ⟨same, rest, split, matched⟩

theorem stringmatch_star (pattern key : Text) :
    stringmatch ('*' :: pattern) key = true ↔
      ∃ front rest, key = front ++ rest ∧ stringmatch pattern rest = true := by
  rw [stringmatch, if_pos rfl, List.any_eq_true]
  simp only [List.mem_tails]
  constructor
  · intro ⟨rest, ⟨front, split⟩, matched⟩
    exact ⟨front, rest, split.symm, matched⟩
  · intro ⟨front, rest, split, matched⟩
    exact ⟨rest, ⟨front, split.symm⟩, matched⟩

theorem matches_neighboursPattern (key : Text) : stringmatch neighboursPattern key = true ↔
    ∃ middle, key = "node_".toList ++ (middle ++ "_neighbours".toList) := by
  have parts : neighboursPattern =
      "node_".toList ++ '*' :: ("_neighbours".toList ++ []) := by decide
  rw [parts, stringmatch_literal (by decide)]
  simp only [stringmatch_star, stringmatch_literal (show '*' ∉ "_neighbours".toList by decide)]
  constructor
  · intro ⟨_, split, middle, _, split', rest, split'', done⟩
    rw [split, split', split'']
    have nothing : rest = [] := by
      rw [stringmatch] at done
      exact List.isEmpty_iff.mp done
    rw [nothing, List.append_nil]
    exact ⟨middle, rfl⟩
  · intro ⟨middle, split⟩
    refine ⟨_, split, middle, _, rfl, [], ?_, rfl⟩
    rw [List.append_nil]

theorem matches_nodeKey {v : ℤ} (range : InInt v) :
    stringmatch neighboursPattern (nodeKey v) = true :=
  (matches_neighboursPattern _).mpr ⟨decimal v, nodeKey_eq range⟩

theorem not_matches_colorKey {v : ℤ} (range : InInt v) :
    stringmatch neighboursPattern (colorKey v) ≠ true := by
  intro matched
  obtain ⟨middle, same⟩ := (matches_neighboursPattern _).mp matched
  rw [colorKey_eq range] at same
  have tails : decimal v ++ "_color".toList = middle ++ "_neighbours".toList :=
    List.append_cancel_left same
  have ends : some 'r' = some 's' :=
    (List.getLast?_append_of_ne_nil (decimal v) (by decide)).symm.trans
      ((congrArg List.getLast? tails).trans (List.getLast?_append_of_ne_nil middle (by decide)))
  exact absurd ends (by decide)

theorem cutSuffix_append {suffix front : Text} (outside : '_' ∉ front) (rest : Text) :
    cutSuffix ('_' :: suffix) (front ++ rest) = front ++ cutSuffix ('_' :: suffix) rest := by
  induction front with
  | nil => rfl
  | cons c front ih =>
      have other : '_' ≠ c := fun same => outside (same ▸ List.mem_cons_self)
      have skip : ('_' :: suffix).isPrefixOf (c :: (front ++ rest)) = false := by
        simp [List.isPrefixOf, other]
      rw [List.cons_append, cutSuffix, if_neg (by simp [skip]),
        ih fun member => outside (List.mem_cons_of_mem c member)]
      rfl

theorem cutSuffix_number {first : Char} {suffix number : Text} (front : Text)
    (plain : '_' ∉ front) (digits : '_' ∉ number) (other : first ∉ number)
    (nonempty : number ≠ []) :
    cutSuffix ('_' :: first :: suffix) (front ++ '_' :: (number ++ '_' :: first :: suffix)) =
      front ++ '_' :: number := by
  obtain ⟨c, more, number_eq⟩ := List.exists_cons_of_ne_nil nonempty
  have apart : first ≠ c := by
    rintro rfl
    rw [number_eq] at other
    exact other List.mem_cons_self
  -- The underscore before the number does not start the suffix.
  have outside : ('_' :: first :: suffix).isPrefixOf
      ('_' :: (number ++ '_' :: first :: suffix)) = false := by
    simp [number_eq, List.isPrefixOf, apart]
  have whole : ('_' :: first :: suffix).isPrefixOf ('_' :: first :: suffix) = true := by simp
  have skip : cutSuffix ('_' :: first :: suffix) ('_' :: (number ++ '_' :: first :: suffix)) =
      '_' :: cutSuffix ('_' :: first :: suffix) (number ++ '_' :: first :: suffix) := by
    rw [cutSuffix, if_neg (Bool.eq_false_iff.mp outside)]
  have cut : cutSuffix ('_' :: first :: suffix) ('_' :: first :: suffix) = [] := by
    rw [cutSuffix, if_pos whole]
  rw [cutSuffix_append plain, skip, cutSuffix_append digits, cut, List.append_nil]

theorem cutSuffix_nodeKey {v : ℤ} (range : InInt v) :
    cutSuffix "_neighbours".toList (nodeKey v) = nodeName v := by
  have digits : '_' ∉ decimal v := fun member => absurd (mem_decimal member) (by decide)
  have other : 'n' ∉ decimal v := fun member => absurd (mem_decimal member) (by decide)
  rw [nodeKey_eq range]
  exact cutSuffix_number "node".toList (by decide) digits other (decimal_ne_nil v)

theorem keyNumber_nodeName {v : ℤ} (range : InInt v) : keyNumber (nodeName v) = v := by
  have front : "node_".toList = ['n', 'o', 'd', 'e'] ++ ['_'] := by decide
  have value := atoi_decimal range [] (by simp)
  rw [List.append_nil] at value
  unfold keyNumber nodeName
  rw [front, List.append_assoc, List.dropWhile_append_of_pos (by simp)]
  simpa using value

theorem compareKeys_le {u v : ℕ} (rangeU : InInt u) (rangeV : InInt v) :
    compareKeys (nodeName u) (nodeName v) ≤ 0 ↔ u ≤ v := by
  have difference : InInt ((u : ℤ) - v) := by
    unfold InInt at *
    omega
  rw [compareKeys, keyNumber_nodeName rangeU, keyNumber_nodeName rangeV,
    toInt_of_inInt difference]
  omega

/-- Whatever the order of the reply, the nodes come out sorted. -/
theorem fetchKeys_eq {reply : List Text} {nodes : List ℕ} (range : ∀ v ∈ nodes, InInt v)
    (sorted : nodes.Pairwise (· < ·))
    (perm : reply.Perm (nodes.map fun v : ℕ => nodeKey v)) :
    fetchKeys reply = nodes.map fun v : ℕ => nodeName v := by
  let number (key : Text) : ℕ := (keyNumber (cutSuffix "_neighbours".toList key)).toNat
  have numbered : ∀ v ∈ nodes, number (nodeKey v) = v := by
    intro v member
    simp only [number, cutSuffix_nodeKey (range v member), keyNumber_nodeName (range v member)]
    exact Int.toNat_natCast v
  have same : (reply.map number).Perm nodes := by
    have back : (nodes.map fun v : ℕ => nodeKey v).map number = nodes := by
      rw [List.map_map]
      exact (List.map_congr_left numbered).trans (List.map_id nodes)
    exact (perm.map number).trans (List.Perm.of_eq back)
  have names : reply.map (cutSuffix "_neighbours".toList) =
      (reply.map number).map fun v : ℕ => nodeName v := by
    rw [List.map_map]
    apply List.map_congr_left
    intro key member
    obtain ⟨v, inNodes, found⟩ := List.mem_map.mp (perm.mem_iff.mp member)
    subst found
    rw [Function.comp_apply, numbered v inNodes, cutSuffix_nodeKey (range v inNodes)]
  have order : (reply.map number).insertionSort (· ≤ ·) = nodes := by
    refine List.Perm.eq_of_pairwise (fun a b _ _ ab ba => Nat.le_antisymm ab ba)
      (List.pairwise_insertionSort _ _) (sorted.imp Nat.le_of_lt)
      ((List.perm_insertionSort _ _).trans same)
  rw [fetchKeys, names, ← List.map_insertionSort (· ≤ ·) _ fun v : ℕ => nodeName v, order]
  intro u memberU v memberV
  exact (compareKeys_le (range u (same.mem_iff.mp memberU))
    (range v (same.mem_iff.mp memberV))).symm

end DistributedColoring
