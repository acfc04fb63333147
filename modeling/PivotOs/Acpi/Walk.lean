import PivotOs.Acpi.Parse

/-!
# Walking an unchecked table

`init_acpi` checks no more of a table than the sum of its bytes.  `get_madt_item`
steps by whatever length an entry gives for itself: an entry of length zero is
met again and again, and the last entry may reach beyond the table.
-/

namespace PivotOs

namespace Acpi

/-- The sum that `validate_checksum` forms. -/
def checksum (start : Nat → BitVec 8) : (length : Nat) → BitVec 8
  | 0 => 0#8
  | i + 1 => checksum start i + start i

/-- `validate_checksum`. -/
def validateChecksum (start : Nat → BitVec 8) (length : Nat) : Bool :=
  checksum start length = 0#8

end Acpi

namespace Madt

/-- The offset of the entry that the walk meets after `n` others. -/
def itemAt (table : Madt) : (n : Nat) → Nat
  | 0 => headerSize
  | n + 1 => itemAt table n + (table.byte (itemAt table n + 1)).toNat

/-- The walk gets as far as its entry `n`. -/
def Meets (table : Madt) (n : Nat) : Prop :=
  table.itemAt n < table.length.toNat

/-- How many of the first `n` entries of the walk are of a type. -/
def met (table : Madt) (searchItem : BitVec 8) : (n : Nat) → Nat
  | 0 => 0
  | n + 1 =>
      met table searchItem n +
        if table.byte (table.itemAt n) = searchItem then 1 else 0

/-- The entry at an offset lies in the table, with its type and its length. -/
def Inside (table : Madt) (item : Nat) : Prop :=
  headerSize ≤ item ∧ item + 2 ≤ table.length.toNat ∧
    item + (table.byte (item + 1)).toNat ≤ table.length.toNat

/-- `get_madt_item` ends for every type and index, with an entry inside the
table if with any. -/
structure Searchable (table : Madt) : Prop where
  ends : ∀ searchItem count, ∃ fuel result,
    table.getMadtItemFrom searchItem count fuel 0#8 headerSize = some result
  inside : ∀ searchItem count fuel item,
    table.getMadtItemFrom searchItem count fuel 0#8 headerSize =
      some (some item) → table.Inside item

/-- What the bytes of a table must be like for that.  A type with 256 entries
answers to every index, and its later entries are never returned. -/
structure Orderly (table : Madt) : Prop where
  /-- An entry of length zero comes after 256 entries of every other type. -/
  stuck : ∀ n, table.Meets n → table.byte (table.itemAt n + 1) = 0#8 →
    ∀ searchItem, searchItem ≠ table.byte (table.itemAt n) →
      256 ≤ table.met searchItem n
  /-- The first 256 entries of a type lie in the table. -/
  fits : ∀ n, table.Meets n →
    table.met (table.byte (table.itemAt n)) n < 256 →
      table.Inside (table.itemAt n)

variable {table : Madt} {searchItem count : BitVec 8} {n m fuel : Nat}

/-! ## The walk -/

theorem met_succ_of_eq (matching : table.byte (table.itemAt n) = searchItem) :
    table.met searchItem (n + 1) = table.met searchItem n + 1 := by
  rw [met, if_pos matching]

theorem met_succ_of_ne (other : table.byte (table.itemAt n) ≠ searchItem) :
    table.met searchItem (n + 1) = table.met searchItem n := by
  rw [met, if_neg other, Nat.add_zero]

theorem itemAt_mono (table : Madt) : Monotone table.itemAt :=
  monotone_nat_of_le_succ fun _ => Nat.le_add_right _ _

theorem met_mono (table : Madt) (searchItem : BitVec 8) :
    Monotone (table.met searchItem) :=
  monotone_nat_of_le_succ fun _ => Nat.le_add_right _ _

theorem Meets.of_le
    (meets : table.Meets n)
    (before : m ≤ n) :
    table.Meets m :=
  lt_of_le_of_lt (table.itemAt_mono before) meets

/-- The number of entries met grows by one at a time, so it takes every value
in between. -/
theorem exists_met_eq
    {k : Nat}
    (more : k < table.met searchItem n) :
    ∃ m, m < n ∧ table.byte (table.itemAt m) = searchItem ∧
      table.met searchItem m = k := by
  induction n with
  | zero => cases more
  | succ n inductionHypothesis =>
      by_cases earlier : k < table.met searchItem n
      · obtain ⟨m, before, matching, counted⟩ := inductionHypothesis earlier
        exact ⟨m, by omega, matching, counted⟩
      · by_cases matching : table.byte (table.itemAt n) = searchItem
        · rw [met_succ_of_eq matching] at more
          exact ⟨n, by omega, matching, by omega⟩
        · rw [met_succ_of_ne matching] at more
          omega

/-- An entry of length zero is met for ever. -/
theorem itemAt_of_stuck
    (zero : table.byte (table.itemAt n + 1) = 0#8)
    (k : Nat) :
    table.itemAt (n + k) = table.itemAt n := by
  induction k with
  | zero => rfl
  | succ k inductionHypothesis =>
      rw [← Nat.add_assoc, itemAt, inductionHypothesis, zero]
      rfl

theorem met_of_stuck
    (zero : table.byte (table.itemAt n + 1) = 0#8)
    (k : Nat) :
    table.met (table.byte (table.itemAt n)) (n + k) =
      table.met (table.byte (table.itemAt n)) n + k := by
  induction k with
  | zero => rfl
  | succ k inductionHypothesis =>
      rw [← Nat.add_assoc, met_succ_of_eq, inductionHypothesis, Nat.add_assoc]
      rw [itemAt_of_stuck zero]

/-- A walk that meets no entry of length zero advances. -/
theorem le_itemAt
    (moving : ∀ m, m < n → table.byte (table.itemAt m + 1) ≠ 0#8) :
    n ≤ table.itemAt n := by
  induction n with
  | zero => exact Nat.zero_le _
  | succ n inductionHypothesis =>
      have earlier := inductionHypothesis fun m before => moving m (by omega)
      have positive : (table.byte (table.itemAt n + 1)).toNat ≠ 0 :=
        fun zero => moving n (Nat.lt_succ_self n) (BitVec.eq_of_toNat_eq zero)
      rw [itemAt]
      omega

/-! ## The search -/

/-- `get_madt_item` from the entry `n` of the walk on. -/
def searchFrom (table : Madt) (searchItem count : BitVec 8) (fuel n : Nat) :
    Option (Option Nat) :=
  table.getMadtItemFrom searchItem count fuel
    (BitVec.ofNat 8 (table.met searchItem n)) (table.itemAt n)

/-- The search ends with the entry `n` of the walk when it gets there. -/
def Hit (table : Madt) (searchItem count : BitVec 8) (n : Nat) : Prop :=
  table.byte (table.itemAt n) = searchItem ∧
    count = BitVec.ofNat 8 (table.met searchItem n)

theorem searchFrom_of_end
    (behind : ¬ table.Meets n) :
    table.searchFrom searchItem count (fuel + 1) n = some none :=
  if_neg behind

theorem searchFrom_of_hit
    (meets : table.Meets n)
    (hit : table.Hit searchItem count n) :
    table.searchFrom searchItem count (fuel + 1) n =
      some (some (table.itemAt n)) := by
  have inside : table.itemAt n < table.length.toNat := meets
  rw [searchFrom, getMadtItemFrom, if_pos inside]
  exact (if_pos hit.1).trans (if_pos hit.2)

theorem searchFrom_of_not_hit
    (meets : table.Meets n)
    (missed : ¬ table.Hit searchItem count n) :
    table.searchFrom searchItem count (fuel + 1) n =
      table.searchFrom searchItem count fuel (n + 1) := by
  have inside : table.itemAt n < table.length.toNat := meets
  rw [searchFrom, getMadtItemFrom, if_pos inside, searchFrom]
  by_cases matching : table.byte (table.itemAt n) = searchItem
  · have other : count ≠ BitVec.ofNat 8 (table.met searchItem n) :=
      fun same => missed ⟨matching, same⟩
    rw [met_succ_of_eq matching, BitVec.ofNat_add]
    exact (if_pos matching).trans (if_neg other)
  · rw [met_succ_of_ne matching]
    exact if_neg matching

/-- The search passes the entries that it does not end with. -/
theorem searchFrom_skip
    (fuel : Nat)
    (passed : ∀ m, m < n → table.Meets m ∧ ¬ table.Hit searchItem count m) :
    table.searchFrom searchItem count (n + fuel) 0 =
      table.searchFrom searchItem count fuel n := by
  induction n generalizing fuel with
  | zero => rw [Nat.zero_add]
  | succ n inductionHypothesis =>
      obtain ⟨meets, missed⟩ := passed n (Nat.lt_succ_self n)
      have earlier : ∀ m, m < n →
          table.Meets m ∧ ¬ table.Hit searchItem count m :=
        fun m before => passed m (by omega)
      rw [Nat.add_assoc, Nat.add_comm 1 fuel, inductionHypothesis (fuel + 1) earlier,
        searchFrom_of_not_hit meets missed]

/-- The index counts the entries of its type before the one it selects. -/
theorem Hit.met_eq
    (hit : table.Hit searchItem count n)
    (few : table.met searchItem n ≤ count.toNat) :
    table.met searchItem n = count.toNat := by
  have small := count.isLt
  rw [hit.2, BitVec.toNat_ofNat, Nat.mod_eq_of_lt (by omega)]

/-- The first entry with the right number of entries before it ends the
search. -/
theorem not_hit_of_lt
    (before : m < n)
    (few : table.met searchItem n ≤ count.toNat) :
    ¬ table.Hit searchItem count m := by
  intro hit
  have later := table.met_mono searchItem (show m + 1 ≤ n from before)
  rw [met_succ_of_eq hit.1] at later
  have counted := hit.met_eq (by omega)
  omega

theorem getMadtItemFrom_found
    (meets : table.Meets n)
    (matching : table.byte (table.itemAt n) = searchItem)
    (counted : table.met searchItem n = count.toNat) :
    table.getMadtItemFrom searchItem count (n + 1) 0#8 headerSize =
      some (some (table.itemAt n)) := by
  have hit : table.Hit searchItem count n := by
    refine ⟨matching, ?_⟩
    rw [counted, BitVec.ofNat_toNat, BitVec.setWidth_eq]
  have skipped := searchFrom_skip 1 fun m before =>
    ⟨meets.of_le before.le, not_hit_of_lt before counted.le⟩
  exact skipped.trans (searchFrom_of_hit meets hit)

theorem getMadtItemFrom_missing
    (inside : ∀ m, m < n → table.Meets m)
    (behind : ¬ table.Meets n)
    (few : table.met searchItem n ≤ count.toNat) :
    table.getMadtItemFrom searchItem count (n + 1) 0#8 headerSize =
      some none := by
  have skipped := searchFrom_skip 1 fun m before =>
    ⟨inside m before, not_hit_of_lt before few⟩
  exact skipped.trans (searchFrom_of_end behind)

/-- What a search returns: an entry with the right number before it, or the
walk has left the table. -/
theorem searchFrom_sound
    {result : Option Nat}
    (few : table.met searchItem n ≤ count.toNat)
    (returned : table.searchFrom searchItem count fuel n = some result) :
    (∃ m, table.Meets m ∧ table.byte (table.itemAt m) = searchItem ∧
        table.met searchItem m = count.toNat ∧
        result = some (table.itemAt m)) ∨
      (result = none ∧ ∃ m, ¬ table.Meets m) := by
  induction fuel generalizing n with
  | zero => cases returned
  | succ fuel inductionHypothesis =>
      by_cases meets : table.Meets n
      · by_cases hit : table.Hit searchItem count n
        · rw [searchFrom_of_hit meets hit] at returned
          cases returned
          exact .inl ⟨n, meets, hit.1, hit.met_eq few, rfl⟩
        · rw [searchFrom_of_not_hit meets hit] at returned
          refine inductionHypothesis ?_ returned
          by_cases matching : table.byte (table.itemAt n) = searchItem
          · -- The index is larger, or this entry would have been returned.
            have other : table.met searchItem n ≠ count.toNat := by
              intro same
              refine hit ⟨matching, ?_⟩
              rw [same, BitVec.ofNat_toNat, BitVec.setWidth_eq]
            rw [met_succ_of_eq matching]
            omega
          · rwa [met_succ_of_ne matching]
      · rw [searchFrom_of_end meets] at returned
        cases returned
        exact .inr ⟨rfl, n, meets⟩

/-! ## When the search ends inside the table -/

/-- A walk of enough entries of a type ends the search. -/
theorem exists_found
    (inside : ∀ m, m < n → table.Meets m)
    (enough : count.toNat < table.met searchItem n) :
    ∃ fuel result,
      table.getMadtItemFrom searchItem count fuel 0#8 headerSize =
        some result := by
  obtain ⟨m, before, matching, counted⟩ := exists_met_eq enough
  exact ⟨_, _, getMadtItemFrom_found (inside m before) matching counted⟩

/-- A walk that does not leave the table has met an entry of length zero. -/
theorem exists_stuck
    (inside : ∀ m, table.Meets m) :
    ∃ n, table.byte (table.itemAt n + 1) = 0#8 := by
  by_contra none
  have moving : ∀ n, table.byte (table.itemAt n + 1) ≠ 0#8 :=
    fun n zero => none ⟨n, zero⟩
  have far : table.length.toNat ≤ table.itemAt table.length.toNat :=
    le_itemAt fun m _ => moving m
  exact absurd (inside table.length.toNat) (Nat.not_lt.mpr far)

theorem Orderly.ends
    (orderly : table.Orderly)
    (searchItem count : BitVec 8) :
    ∃ fuel result,
      table.getMadtItemFrom searchItem count fuel 0#8 headerSize =
        some result := by
  classical
  by_cases inside : ∀ m, table.Meets m
  · obtain ⟨n, zero⟩ := exists_stuck inside
    have small := count.isLt
    by_cases other : searchItem = table.byte (table.itemAt n)
    · -- The entry is counted each time the walk comes back to it.
      refine exists_found (n := n + 256) (fun m _ => inside m) ?_
      rw [other, met_of_stuck zero]
      omega
    · have many := orderly.stuck n (inside n) zero searchItem other
      exact exists_found (fun m _ => inside m) (lt_of_lt_of_le small many)
  · have leaves : ∃ n, ¬ table.Meets n := not_forall.mp inside
    have earlier : ∀ m, m < Nat.find leaves → table.Meets m :=
      fun m before => not_not.mp (Nat.find_min leaves before)
    by_cases few : table.met searchItem (Nat.find leaves) ≤ count.toNat
    · exact ⟨_, _, getMadtItemFrom_missing earlier (Nat.find_spec leaves) few⟩
    · exact exists_found earlier (Nat.not_le.mp few)

theorem Orderly.searchable
    (orderly : table.Orderly) :
    table.Searchable := by
  refine ⟨orderly.ends, ?_⟩
  intro searchItem count fuel item returned
  have start : table.searchFrom searchItem count fuel 0 = some (some item) :=
    returned
  obtain ⟨n, meets, matching, counted, same⟩ | ⟨missing, -⟩ :=
    searchFrom_sound (Nat.zero_le _) start
  · cases same
    refine orderly.fits n meets ?_
    rw [matching, counted]
    exact count.isLt
  · cases missing

/-- Searching for another type than that of an entry of length zero, with an
index that has not been reached, does not end. -/
theorem Searchable.stuck
    (searchable : table.Searchable)
    (meets : table.Meets n)
    (zero : table.byte (table.itemAt n + 1) = 0#8)
    (other : searchItem ≠ table.byte (table.itemAt n)) :
    256 ≤ table.met searchItem n := by
  by_contra few
  have narrow : (BitVec.ofNat 8 (table.met searchItem n)).toNat =
      table.met searchItem n := by
    rw [BitVec.toNat_ofNat]
    omega
  obtain ⟨fuel, result, returned⟩ :=
    searchable.ends searchItem (BitVec.ofNat 8 (table.met searchItem n))
  have start : table.searchFrom searchItem _ fuel 0 = some result := returned
  obtain ⟨m, -, matching, counted, -⟩ | ⟨-, m, left⟩ :=
    searchFrom_sound (Nat.zero_le _) start
  · rw [narrow] at counted
    rcases Nat.lt_or_ge m n with before | behind
    · have later := table.met_mono searchItem (show m + 1 ≤ n from before)
      rw [met_succ_of_eq matching] at later
      omega
    · obtain ⟨k, rfl⟩ := Nat.exists_eq_add_of_le behind
      rw [itemAt_of_stuck zero] at matching
      exact other matching.symm
  · rcases Nat.lt_or_ge m n with before | behind
    · exact left (meets.of_le before.le)
    · obtain ⟨k, rfl⟩ := Nat.exists_eq_add_of_le behind
      rw [Meets, itemAt_of_stuck zero] at left
      exact left meets

theorem Searchable.fits
    (searchable : table.Searchable)
    (meets : table.Meets n)
    (few : table.met (table.byte (table.itemAt n)) n < 256) :
    table.Inside (table.itemAt n) := by
  have narrow : table.met (table.byte (table.itemAt n)) n =
      (BitVec.ofNat 8
        (table.met (table.byte (table.itemAt n)) n)).toNat := by
    rw [BitVec.toNat_ofNat]
    omega
  exact searchable.inside _ _ _ _ (getMadtItemFrom_found meets rfl narrow)

/-- For every content of a table, the search ends for every type and index, with
entries inside the table, exactly when an entry of length zero comes after 256
entries of every other type and the first 256 entries of a type lie in the
table. -/
theorem searchable_iff_orderly (byte : Nat → BitVec 8) :
    (ofBytes byte).Searchable ↔ (ofBytes byte).Orderly := by
  refine ⟨fun searchable => ?_, Orderly.searchable⟩
  exact {
    stuck := fun _ meets zero _ other => searchable.stuck meets zero other
    fits := fun _ meets few => searchable.fits meets few }

/-- A table that passes its checksum, with one I/O APIC entry of a given
length. -/
def shortTable (sum length : BitVec 8) (offset : Nat) : BitVec 8 :=
  match offset with
  | 0 => 0x41#8
  | 1 => 0x50#8
  | 2 => 0x49#8
  | 3 => 0x43#8
  | 4 => 0x2E#8
  | 9 => sum
  | 44 => ioapicType
  | 45 => length
  | _ => 0#8

/-- An entry of length zero: the search for another type does not end.  An entry
that is longer than what is left of the table: it is returned all the same. -/
theorem not_searchable_shortTable :
    (Acpi.validateChecksum (shortTable 0xB4#8 0#8)
        (ofBytes (shortTable 0xB4#8 0#8)).length.toNat = true ∧
      ∀ fuel, (ofBytes (shortTable 0xB4#8 0#8)).getMadtItemFrom intSoOvrdType
        0#8 fuel 0#8 headerSize = none) ∧
    Acpi.validateChecksum (shortTable 0xA8#8 12#8)
        (ofBytes (shortTable 0xA8#8 12#8)).length.toNat = true ∧
      (ofBytes (shortTable 0xA8#8 12#8)).getMadtItem ioapicType 0#8 =
        some (some headerSize) ∧
      ¬ (ofBytes (shortTable 0xA8#8 12#8)).Inside headerSize := by
  refine ⟨⟨by decide, fun fuel => ?_⟩, by decide, by decide, ?_⟩
  · induction fuel with
    | zero => rfl
    | succ fuel inductionHypothesis => exact inductionHypothesis
  · unfold Inside
    decide

end Madt
end PivotOs
