import Mathlib.Data.List.Basic
import Mathlib.Data.Set.Basic

/-!
# Machinery/HashChain — chains of blocks linked by hashes

A block names its predecessor by a hash, so along a chain that starts at a fixed root a block's hash
fixes its whole past.  In particular its height is the same in every chain that holds it
(`HashChain.height_unique`): a position remembered as a hash survives a change of the chain, as long
as the block does.
-/

namespace Bitspend

variable {β η : Type}

/-- **Blocks linked by hashes**: the blocks that exist, among which the hash tells any two apart and
none has the hash of the root. -/
structure HashTree (β η : Type) where
  hash : β → η
  prev : β → η
  root : η
  mined : Set β
  hash_injOn : ∀ b ∈ mined, ∀ b' ∈ mined, hash b = hash b' → b = b'
  hash_ne_root : ∀ b ∈ mined, hash b ≠ root

/-- **A chain from the root**: every block names the one before it. -/
structure HashChain (t : HashTree β η) where
  blocks : List β
  mined : ∀ b ∈ blocks, b ∈ t.mined
  linked : ∀ (i : ℕ) (b : β), blocks[i]? = some b →
    (t.root :: blocks.map t.hash)[i]? = some (t.prev b)

namespace HashChain

variable {t : HashTree β η}

/-- The hashes along a chain, by height: the root's is at height zero. -/
def hashes (c : HashChain t) : List η := t.root :: c.blocks.map t.hash

/-- The links of a chain, checked pair by pair. -/
theorem linked_of_zip {blocks : List β}
    (h : ∀ x ∈ (t.root :: blocks.map t.hash).zip blocks, x.1 = t.prev x.2) (i : ℕ) (b : β)
    (hb : blocks[i]? = some b) : (t.root :: blocks.map t.hash)[i]? = some (t.prev b) := by
  obtain ⟨hlt, rfl⟩ := List.getElem?_eq_some_iff.mp hb
  have hlt' : i < (t.root :: blocks.map t.hash).length := by
    rw [List.length_cons, List.length_map]
    omega
  rw [List.getElem?_eq_getElem hlt']
  have hmem : ((t.root :: blocks.map t.hash)[i], blocks[i])
      ∈ (t.root :: blocks.map t.hash).zip blocks := by
    rw [← List.getElem_zip (h := by rw [List.length_zip]; omega)]
    exact List.getElem_mem _
  exact congrArg some (h _ hmem)

/-- Above the root, the hash at a height is that of a block. -/
theorem getElem?_hashes_succ (c : HashChain t) {i : ℕ} {x : η} (h : c.hashes[i + 1]? = some x) :
    ∃ b, c.blocks[i]? = some b ∧ t.hash b = x := by
  rw [hashes, List.getElem?_cons_succ, List.getElem?_map] at h
  exact Option.map_eq_some_iff.mp h

theorem mined_of_getElem? (c : HashChain t) {i : ℕ} {b : β} (h : c.blocks[i]? = some b) :
    b ∈ t.mined :=
  c.mined b (List.mem_of_getElem? h)

/-- **A hash has one height**, in whatever chains it stands: go down the links of both. -/
theorem height_unique {c c' : HashChain t} {i j : ℕ} {x : η} (h : c.hashes[i]? = some x)
    (h' : c'.hashes[j]? = some x) : i = j := by
  have hroot : ∀ (c : HashChain t) (i : ℕ), c.hashes[i + 1]? ≠ some t.root := by
    intro c i hi
    obtain ⟨b, hb, hroot⟩ := c.getElem?_hashes_succ hi
    exact t.hash_ne_root b (c.mined_of_getElem? hb) hroot
  induction i generalizing j x with
  | zero =>
    obtain rfl : t.root = x := by simpa [hashes] using h
    rcases j with _ | j
    · rfl
    · exact absurd h' (hroot c' j)
  | succ i ih =>
    rcases j with _ | j
    · obtain rfl : t.root = x := by simpa [hashes] using h'
      exact absurd h (hroot c i)
    · obtain ⟨b, hb, hx⟩ := c.getElem?_hashes_succ h
      obtain ⟨b', hb', hx'⟩ := c'.getElem?_hashes_succ h'
      obtain rfl := t.hash_injOn b (c.mined_of_getElem? hb) b' (c'.mined_of_getElem? hb')
        (hx.trans hx'.symm)
      rw [ih (c.linked i b hb) (c'.linked j b hb')]

/-- **Walking on from a hash**: the last of the next blocks stands that much higher. -/
theorem getElem?_hashes_of_getLast? {c : HashChain t} {i k : ℕ} {bs : List β} {b : β}
    (hbs : bs = (c.blocks.drop i).take k) (hlast : bs.getLast? = some b) :
    c.hashes[i + bs.length]? = some (t.hash b) := by
  have hne : bs ≠ [] := by
    rintro rfl
    cases hlast
  have hpos : 0 < bs.length := List.length_pos_iff.mpr hne
  have hlen : bs.length ≤ k := by rw [hbs]; exact List.length_take_le _ _
  have hb : c.blocks[i + (bs.length - 1)]? = some b := by
    rw [List.getLast?_eq_getElem?] at hlast
    nth_rewrite 1 [hbs] at hlast
    rwa [List.getElem?_take_of_lt (by omega), List.getElem?_drop] at hlast
  have hidx : i + bs.length = i + (bs.length - 1) + 1 := by omega
  rw [hashes, hidx, List.getElem?_cons_succ, List.getElem?_map, hb]
  rfl

section After

variable [DecidableEq η]

/-- The blocks after a hash; after the root, when the chain does not hold it. -/
def after (c : HashChain t) (x : η) : List β :=
  match c.hashes.idxOf? x with
  | some i => c.blocks.drop i
  | none => c.blocks

theorem after_of_mem {c : HashChain t} {i : ℕ} {x : η} (h : c.hashes[i]? = some x) :
    c.after x = c.blocks.drop i := by
  have hmem : x ∈ c.hashes := List.mem_of_getElem? h
  obtain ⟨j, hj⟩ : ∃ j, c.hashes.idxOf? x = some j :=
    Option.isSome_iff_exists.mp (List.isSome_idxOf?.mpr hmem)
  have hx : c.hashes[j]? = some x := by
    obtain ⟨hlt, heq, -⟩ := List.idxOf?_eq_some_iff.mp hj
    rw [List.getElem?_eq_getElem hlt, heq]
  rw [after, hj, height_unique h hx]

end After

end HashChain

end Bitspend
