import VectorPaint.Proofs.Scalar.Denoted

/-!
The order of floats. It is transitive without exception and total on determinate floats. Two zeros
of different sign are no different in it, so the smaller of two floats is told by what lies below
and above it.
-/
namespace VectorPaint.Binary64

open Float.Model Float.Model.UnpackedFloat

variable {a b c m : Float}

theorem determinate_of_le (le : a ≤ b) : Determinate a ∧ Determinate b := by
  constructor
  · intro indeterminate
    change decide (a.toModel ≤ b.toModel) = true at le
    rw [decide_eq_true_iff] at le
    change UnpackedFloat.le a.toModel.unpack b.toModel.unpack = true at le
    rw [indeterminate] at le
    cases b.toModel.unpack <;> cases le
  · exact not_not.mp fun indeterminate => not_le_of_indeterminate indeterminate le

protected theorem le_trans (first : a ≤ b) (second : b ≤ c) : a ≤ c := by
  obtain ⟨start, middle⟩ := determinate_of_le first
  have stop := (determinate_of_le second).2
  rw [le_iff_number start middle] at first
  rw [le_iff_number middle stop] at second
  exact (le_iff_number start stop).mpr (first.trans second)

theorem le_self (determinate : Determinate a) : a ≤ a :=
  (le_iff_number determinate determinate).mpr le_rfl

protected theorem not_lt_iff (first : Determinate a) (second : Determinate b) :
    ¬ a < b ↔ b ≤ a := by
  rw [lt_iff_number first second, le_iff_number second first, not_lt]

protected theorem not_le_iff (first : Determinate a) (second : Determinate b) :
    ¬ a ≤ b ↔ b < a := by
  rw [le_iff_number first second, lt_iff_number second first, not_le]

protected theorem le_total (first : a.isFinite = true) (second : b.isFinite = true) :
    a ≤ b ∨ b ≤ a := by
  have left := determinate_of_isFinite first
  have right := determinate_of_isFinite second
  rw [le_iff_number left right, le_iff_number right left]
  exact le_total _ _

protected theorem le_of_lt (less : a < b) : a ≤ b := by
  have first : Determinate a := not_not.mp fun none => not_lt_of_indeterminate none less
  have second : Determinate b := not_not.mp fun none => not_lt_indeterminate none less
  rw [lt_iff_number first second] at less
  exact (le_iff_number first second).mpr less.le

theorem beq_of_le (first : a ≤ b) (second : b ≤ a) : (a == b) = true := by
  obtain ⟨left, right⟩ := determinate_of_le first
  rw [le_iff_number left right] at first
  rw [le_iff_number right left] at second
  exact (beq_iff_number left right).mpr (le_antisymm first second)

/-- The float is the smaller of two others, but perhaps for the sign of a zero. -/
structure Smaller (m a b : Float) : Prop where
  le_iff (c : Float) : c ≤ m ↔ c ≤ a ∧ c ≤ b
  iff_le (c : Float) : m ≤ c ↔ a ≤ c ∨ b ≤ c

/-- The float is the larger of two others, but perhaps for the sign of a zero. -/
structure Larger (m a b : Float) : Prop where
  le_iff (c : Float) : c ≤ m ↔ c ≤ a ∨ c ≤ b
  iff_le (c : Float) : m ≤ c ↔ a ≤ c ∧ b ≤ c

theorem Smaller.symm (smaller : Smaller m a b) : Smaller m b a :=
  ⟨fun c => (smaller.le_iff c).trans and_comm, fun c => (smaller.iff_le c).trans or_comm⟩

theorem Larger.symm (larger : Larger m a b) : Larger m b a :=
  ⟨fun c => (larger.le_iff c).trans or_comm, fun c => (larger.iff_le c).trans and_comm⟩

theorem smaller_of_le (le : a ≤ b) : Smaller a a b where
  le_iff _ := ⟨fun below => ⟨below, Binary64.le_trans below le⟩, And.left⟩
  iff_le _ := ⟨Or.inl, fun above => above.elim id (Binary64.le_trans le)⟩

theorem larger_of_le (le : a ≤ b) : Larger b a b where
  le_iff _ := ⟨Or.inr, fun below => below.elim (Binary64.le_trans · le) id⟩
  iff_le _ := ⟨fun above => ⟨Binary64.le_trans le above, above⟩, And.right⟩

theorem smaller_least (first : Determinate a) (second : Determinate b) :
    Smaller (Scalar.least a b) a b := by
  rw [Scalar.least, if_pos (beq_self_iff.mpr first)]
  split
  · rename_i less
    exact (smaller_of_le (Binary64.le_of_lt less)).symm
  · rename_i not_less
    exact smaller_of_le ((Binary64.not_lt_iff second first).mp not_less)

theorem larger_greatest (first : Determinate a) (second : Determinate b) :
    Larger (Scalar.greatest a b) a b := by
  rw [Scalar.greatest, if_pos (beq_self_iff.mpr first)]
  split
  · rename_i less
    exact larger_of_le (Binary64.le_of_lt less)
  · rename_i not_less
    exact (larger_of_le ((Binary64.not_lt_iff first second).mp not_less)).symm

/-- A float that is neither below nor above two finite ones is finite. -/
theorem isFinite_of_between (first : a.isFinite = true) (second : b.isFinite = true)
    (low : a ≤ m ∨ b ≤ m) (high : m ≤ a ∨ m ≤ b) : m.isFinite = true := by
  have between {c d : Float} (start : c.isFinite = true) (stop : d.isFinite = true)
      (above : c ≤ m) (below : m ≤ d) : m.isFinite = true := by
    obtain ⟨x, left⟩ := exists_denotes_of_isFinite start
    obtain ⟨y, right⟩ := exists_denotes_of_isFinite stop
    obtain ⟨determinate, determinate'⟩ := determinate_of_le above
    obtain ⟨z, denotes⟩ := exists_denotes_of_between left right determinate'
      ((le_iff_number determinate determinate').mp above)
      ((le_iff_number determinate' right.determinate).mp below)
    exact denotes.isFinite
  rcases low with above | above <;> rcases high with below | below
  exacts [between first first above below, between first second above below,
    between second first above below, between second second above below]

theorem Smaller.isFinite (smaller : Smaller m a b) (first : a.isFinite = true)
    (second : b.isFinite = true) : m.isFinite = true := by
  have self := le_self (determinate_of_isFinite first)
  have self' := le_self (determinate_of_isFinite second)
  refine isFinite_of_between first second ?_ (.inl ((smaller.iff_le a).mpr (.inl self)))
  rw [smaller.le_iff, smaller.le_iff]
  exact (Binary64.le_total first second).imp (fun le => ⟨self, le⟩) fun le => ⟨le, self'⟩

theorem Larger.isFinite (larger : Larger m a b) (first : a.isFinite = true)
    (second : b.isFinite = true) : m.isFinite = true := by
  have self := le_self (determinate_of_isFinite first)
  have self' := le_self (determinate_of_isFinite second)
  refine isFinite_of_between first second (.inl ((larger.le_iff a).mpr (.inl self))) ?_
  rw [larger.iff_le, larger.iff_le]
  exact (Binary64.le_total first second).symm.imp (fun le => ⟨self, le⟩) fun le => ⟨le, self'⟩

/-- Two floats in order. -/
theorem sorted_spec (first : Determinate a) (second : Determinate b) :
    Smaller (if a ≤ b then (a, b) else (b, a)).1 a b ∧
      Larger (if a ≤ b then (a, b) else (b, a)).2 a b := by
  split
  · rename_i le
    exact ⟨smaller_of_le le, larger_of_le le⟩
  · rename_i not_le
    have le : b ≤ a := Binary64.le_of_lt ((Binary64.not_le_iff first second).mp not_le)
    exact ⟨(smaller_of_le le).symm, (larger_of_le le).symm⟩

/-- A margin that is taken off a finite float and leaves a finite one is finite. -/
theorem exists_denotes_of_sub (first : a.isFinite = true) (finite : (a - b).isFinite = true) :
    ∃ y, Denotes b y := by
  obtain ⟨x, denotes⟩ := exists_denotes_of_isFinite first
  have determinate := (determinate_of_isFinite finite).of_sub.2
  rcases determinate.number_unpack with number | ⟨sign, infinite⟩
  · exact ⟨_, number, rfl⟩
  · have model : a - b = .ofModel (.pack
      (UnpackedFloat.sub Format.binary64 a.toModel.unpack b.toModel.unpack)) := rfl
    have lost : UnpackedFloat.sub Format.binary64 a.toModel.unpack (.infinity sign) =
        .infinity (-sign) := by
      obtain ⟨-, _, read⟩ | ⟨_, _, _, _, read, -⟩ := denotes.zero_or_mantissa <;>
        rw [read] <;> cases sign <;> rfl
    obtain ⟨z, still⟩ := exists_denotes_of_isFinite finite
    rw [model, infinite, lost] at still
    have far := still.finite
    cases sign <;> cases far

/-- Moved apart by a margin that is not negative, the ends of a range stay in order. -/
theorem sub_le_add (le : a ≤ b) (low : a.isFinite = true) (high : b.isFinite = true)
    (margin : Scalar.ofNat 0 ≤ m) (finite : (a - m).isFinite = true) : a - m ≤ b + m := by
  obtain ⟨x, start⟩ := exists_denotes_of_isFinite low
  obtain ⟨y, stop⟩ := exists_denotes_of_isFinite high
  obtain ⟨d, width⟩ := exists_denotes_of_sub low finite
  have less := start.sub width
  have more := stop.add width
  have order := (start.le_iff stop).mp le
  have nonneg := (denotes_zero.le_iff width).mp margin
  rw [le_iff_number less.determinate more.determinate, less.number_eq, more.number_eq]
  exact stored_mono (by linarith)

end VectorPaint.Binary64
