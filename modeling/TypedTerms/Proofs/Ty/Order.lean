import Mathlib.Data.List.Forall2
import TypedTerms.Ty.Order

/-!
# The order of types is a total preorder

The comparison of two types goes down into their elements and begins
there again. What it looks at, in the order in which it does, is a list
of numbers: the place of the kind, the number of elements, and then the
same of each element (`Ty.key`). The number of elements stands in front
of them, so no key begins another, and types compare as their keys do
from the left (`compare_eq_compare_key`), however deep they go.

Lists of numbers are in a total order, which makes the order of types a
total preorder. A list of types can be sorted, and it makes no difference
how: two results hold types that compare equal at every place
(`compare_total_preorder`).
-/

namespace TypedTerms.Ty

variable {a b c : Ty} {as bs ts us : List Ty}

/-! ## Keys -/

section Key

variable {xs ys : List Nat}

mutual

/-- The numbers that a comparison with the type looks at. -/
def key : Ty → List Nat
  | .compound k es => k.ctorIdx :: es.length :: keyList es
  | .bool => [Kind.bool.ctorIdx, 0]
  | .individual => [Kind.individual.ctorIdx, 0]
  | .integer => [Kind.integer.ctorIdx, 0]
  | .rational => [Kind.rational.ctorIdx, 0]
  | .real => [Kind.real.ctorIdx, 0]

/-- The keys of the types in a row. -/
def keyList : List Ty → List Nat
  | [] => []
  | t :: ts => t.key ++ keyList ts

end

/-- The key of a type begins with its kind and its size, and goes on with
the keys of the elements. -/
theorem key_eq (t : Ty) : t.key = t.kind.ctorIdx :: t.size :: keyList t.elements := by
  cases t <;> simp [key, kind, size, elements, keyList]

/-- Lists of one length compare as their keys, whatever stands behind
them, if their elements do. -/
theorem compare_keyList_append
    (ih : ∀ a ∈ as, ∀ (b : Ty) (xs ys : List Nat),
      compare (a.key ++ xs) (b.key ++ ys) = (order a b).then (compare xs ys))
    (hlen : as.length = bs.length) :
    compare (keyList as ++ xs) (keyList bs ++ ys) =
      (orderList as bs).then (compare xs ys) := by
  induction as generalizing bs with
  | nil =>
    obtain rfl := List.length_eq_zero_iff.mp hlen.symm
    simp [orderList, keyList]
  | cons a as iht =>
    cases bs with
    | nil => cases hlen
    | cons b bs =>
      obtain ⟨iha, ihas⟩ := List.forall_mem_cons.mp ih
      rw [keyList, keyList, List.append_assoc, List.append_assoc, iha,
        iht ihas (Nat.succ.inj hlen), orderList, Ordering.then_assoc]

/-- Behind the key of a type may stand anything: it counts only where the
types compare equal. -/
theorem compare_key_append (a b : Ty) (xs ys : List Nat) :
    compare (a.key ++ xs) (b.key ++ ys) = (order a b).then (compare xs ys) := by
  induction a using ind generalizing b xs ys with
  | node a ih =>
    rw [key_eq, key_eq, order_eq]
    simp only [List.cons_append, List.compare_cons_cons, Ordering.then_assoc]
    -- Kinds compare by their places, so that the first numbers compare as the kinds.
    show (compare a.kind b.kind).then _ = _
    -- Only where the numbers of elements agree do the elements stand at the same places.
    cases hsize : compare a.size b.size with
    | lt | gt => rfl
    | eq => rw [compare_keyList_append ih (Nat.compare_eq_eq.mp hsize)]

/-- Types compare as their keys do from the left. -/
theorem compare_eq_compare_key (a b : Ty) : compare a b = compare a.key b.key := by
  have h := compare_key_append a b [] []
  rw [List.append_nil, List.append_nil] at h
  exact (h.trans Ordering.then_eq).symm

/-- Types that compare equal have one key. -/
theorem compare_eq_eq_iff_key : compare a b = .eq ↔ a.key = b.key := by
  rw [compare_eq_compare_key, Std.LawfulEqOrd.compare_eq_iff_eq]

end Key

/-! ## The preorder -/

instance : Std.TransOrd Ty := by
  have h : (compare : Ty → Ty → Ordering) = compareOn key := by
    ext a b
    exact compare_eq_compare_key a b
  show Std.TransCmp (compare : Ty → Ty → Ordering)
  rw [h]
  infer_instance

theorem compare_swap (a b : Ty) : compare b a = (compare a b).swap := Std.OrientedOrd.eq_swap

/-- The order of types is transitive. -/
theorem compare_ne_gt_trans (hab : compare a b ≠ .gt) (hbc : compare b c ≠ .gt) :
    compare a c ≠ .gt := by
  rw [Ne, Ordering.ne_gt_iff_isLE] at hab hbc ⊢
  exact Std.TransOrd.isLE_trans hab hbc

/-- Of any two types one is not greater than the other. -/
theorem compare_ne_gt_total (a b : Ty) : compare a b ≠ .gt ∨ compare b a ≠ .gt := by
  rw [compare_swap a b]
  cases compare a b <;> decide

/-! ## Sorted lists -/

/-- No type in the list is greater than one that comes after it. -/
def Ascending (ts : List Ty) : Prop := ts.Pairwise fun a b => compare a b ≠ .gt

instance : DecidablePred Ascending := fun ts => inferInstanceAs (Decidable (ts.Pairwise _))

/-- Sorting puts types in ascending order. -/
theorem ascending_sort (ts : List Ty) : Ascending (sort ts) := by
  refine (List.pairwise_mergeSort ?_ ?_ ts).imp fun h => bne_iff_ne.mp h
  · intro a b c hab hbc
    rw [bne_iff_ne] at hab hbc ⊢
    exact compare_ne_gt_trans hab hbc
  · intro a b
    rw [Bool.or_eq_true, bne_iff_ne, bne_iff_ne]
    exact compare_ne_gt_total a b

/-- In ascending order the keys of a list of types can stand in one way
only. -/
theorem Ascending.map_key_eq (ht : Ascending ts) (hu : Ascending us) (h : ts.Perm us) :
    ts.map key = us.map key := by
  have keys_ascending {ts : List Ty} (ht : Ascending ts) :
      (ts.map key).Pairwise fun x y => compare x y ≠ .gt := by
    refine List.pairwise_map.mpr (ht.imp fun hab => ?_)
    rwa [← compare_eq_compare_key]
  refine List.Perm.eq_of_pairwise ?_ (keys_ascending ht) (keys_ascending hu) (h.map key)
  intro x y _ _ hxy hyx
  rw [Ne, Ordering.ne_gt_iff_isLE] at hxy hyx
  exact Std.LawfulEqOrd.eq_of_compare (Std.OrientedCmp.isLE_antisymm hxy hyx)

/-- Two ascending orders of the same types agree place by place, up to types
that compare equal. -/
theorem Ascending.forall₂_eq (ht : Ascending ts) (hu : Ascending us) (h : ts.Perm us) :
    List.Forall₂ (fun a b => compare a b = .eq) ts us := by
  have hkeys := ht.map_key_eq hu h
  rw [← List.forall₂_eq_eq_eq, List.forall₂_map_left_iff, List.forall₂_map_right_iff] at hkeys
  exact hkeys.imp fun _ _ => compare_eq_eq_iff_key.mpr

/-- The comparison of types is a total preorder. Exchanging two types
reverses their comparison, and if a first type is not greater than a
second and the second not greater than a third, the first is not greater
than the third. So every list of types can be put in ascending order, as
sorting does, and any two ways to do it put types that compare equal at
the same places. -/
theorem compare_total_preorder :
    (∀ a b : Ty, compare b a = (compare a b).swap) ∧
    (∀ a b c : Ty, compare a b ≠ .gt → compare b c ≠ .gt → compare a c ≠ .gt) ∧
    (∀ ts : List Ty, (sort ts).Perm ts ∧ Ascending (sort ts)) ∧
    ∀ ts us : List Ty, ts.Perm us → Ascending ts → Ascending us →
      List.Forall₂ (fun a b => compare a b = .eq) ts us :=
  ⟨compare_swap, fun _ _ _ => compare_ne_gt_trans,
    fun ts => ⟨List.mergeSort_perm ts _, ascending_sort ts⟩,
    fun _ _ h ht hu => ht.forall₂_eq hu h⟩

/-- Where the atomic type and the empty compound of its kind stand side by
side, they may stand either way. -/
theorem compare_total_preorder_sample :
    (compare (func .bool [.real]) (func .bool [.real, .integer]) ≠ .gt ∧
      compare (func .bool [.real, .integer]) (func .bool [func .integer [], .bool]) ≠ .gt ∧
      compare (func .bool [.real]) (func .bool [func .integer [], .bool]) ≠ .gt) ∧
    Ascending [.bool, .compound .bool [], func .real []] ∧
      Ascending [.compound .bool [], .bool, func .real []] ∧
      List.Forall₂ (fun a b : Ty => compare a b = .eq)
        [.bool, .compound .bool [], func .real []] [.compound .bool [], .bool, func .real []] := by
  obtain ⟨-, htrans, -, hunique⟩ := compare_total_preorder
  have hab : compare (func .bool [.real]) (func .bool [.real, .integer]) ≠ .gt := by decide
  have hbc : compare (func .bool [.real, .integer])
    (func .bool [func .integer [], .bool]) ≠ .gt := by decide
  have hts : Ascending [.bool, .compound .bool [], func .real []] := by decide
  have hus : Ascending [.compound .bool [], .bool, func .real []] := by decide
  exact ⟨⟨hab, hbc, htrans _ _ _ hab hbc⟩, hts, hus, hunique _ _ (.swap _ _ _) hts hus⟩

end TypedTerms.Ty

/-!
## Types that compare equal

The order of types looks at kind and elements only. It does not see
whether a type without elements is atomic or a compound, so it takes the
empty compound of an atomic kind for the atomic type, at any depth. Apart
from that it sees everything: two types compare equal exactly when they
are one and the same once every empty compound of an atomic kind is
replaced by the atomic type (`Ty.plain`).

A type is plain when there is no such compound in it. Every type compares
equal to exactly one plain type, and plain types compare equal only to
themselves (`compare_eq_iff_plain_eq`). For other types the order is not
consistent with equality (`compare_eq_of_ne`).
-/

namespace TypedTerms

theorem Kind.compare_eq_eq_iff {k l : Kind} : compare k l = .eq ↔ k = l := by
  cases k <;> cases l <;> decide

namespace Ty

variable {t : Ty} {as bs es fs : List Ty} {k l : Kind}

/-! ### One type for each kind and elements -/

/-- The type with the kind and the elements. Where there are none it is
the atomic type, if the kind has one. -/
def ofParts : Kind → List Ty → Ty
  | .bool, [] => .bool
  | .individual, [] => .individual
  | .integer, [] => .integer
  | .rational, [] => .rational
  | .real, [] => .real
  | k, es => .compound k es

@[simp] theorem kind_ofParts (k : Kind) (es : List Ty) : (ofParts k es).kind = k := by
  cases k <;> cases es <;> rfl

@[simp] theorem elements_ofParts (k : Kind) (es : List Ty) : (ofParts k es).elements = es := by
  cases k <;> cases es <;> rfl

/-- Types made of parts are equal only if the parts are. -/
theorem ofParts_inj : ofParts k es = ofParts l fs ↔ k = l ∧ es = fs := by
  constructor
  · intro h
    exact ⟨by simpa using congrArg kind h, by simpa using congrArg elements h⟩
  · rintro ⟨rfl, rfl⟩
    rfl

mutual

/-- The type with the atomic type in place of each empty compound of an
atomic kind. -/
def plain : Ty → Ty
  | .compound k es => ofParts k (plainList es)
  | t => t

def plainList : List Ty → List Ty
  | [] => []
  | t :: ts => t.plain :: plainList ts

end

theorem plainList_eq_map (ts : List Ty) : plainList ts = ts.map plain := by
  induction ts with
  | nil => rfl
  | cons t ts ih => rw [plainList, ih, List.map_cons]

/-- A type is made plain by making its elements plain and putting it
together again. -/
theorem plain_eq (t : Ty) : t.plain = ofParts t.kind (t.elements.map plain) := by
  cases t with
  | compound k es =>
    rw [plain, plainList_eq_map]
    rfl
  | _ => rfl

/-- Nowhere in the type is there an empty compound of an atomic kind. -/
inductive IsPlain : Ty → Prop where
  | bool : IsPlain .bool
  | individual : IsPlain .individual
  | integer : IsPlain .integer
  | rational : IsPlain .rational
  | real : IsPlain .real
  | compound {k : Kind} {es : List Ty} (nonempty : es = [] → k = .func)
    (elements : ∀ e ∈ es, IsPlain e) : IsPlain (.compound k es)

/-- Signatures are not empty. -/
theorem IsPlain.func {result : Ty} {params : List Ty} (hresult : result.IsPlain)
    (hparams : ∀ p ∈ params, p.IsPlain) : (Ty.func result params).IsPlain :=
  .compound (absurd · (List.cons_ne_nil _ _)) (List.forall_mem_cons.mpr ⟨hresult, hparams⟩)

/-- A type made of plain elements is plain. -/
theorem isPlain_ofParts (k : Kind) (h : ∀ e ∈ es, e.IsPlain) : (ofParts k es).IsPlain := by
  cases es with
  | nil =>
    cases k with
    | bool => exact .bool
    | individual => exact .individual
    | integer => exact .integer
    | rational => exact .rational
    | real => exact .real
    | func => exact .compound (fun _ => rfl) h
  | cons e es => cases k <;> exact .compound (absurd · (List.cons_ne_nil e es)) h

theorem isPlain_plain (t : Ty) : t.plain.IsPlain := by
  induction t using ind with
  | node t ih =>
    rw [plain_eq]
    exact isPlain_ofParts t.kind (List.forall_mem_map.mpr ih)

/-- A plain type is left as it is. -/
theorem IsPlain.plain_eq_self (h : t.IsPlain) : t.plain = t := by
  induction h with
  | bool | individual | integer | rational | real => rfl
  | @compound k es nonempty _ ih =>
    rw [plain_eq, kind, elements, List.map_congr_left ih, List.map_id']
    cases es with
    | nil =>
      obtain rfl := nonempty rfl
      rfl
    | cons e es => cases k <;> rfl

/-! ### What the order takes for one type -/

/-- Lists of types compare equal when they are one list once they are made
plain, if that holds of their members. -/
theorem orderList_eq_eq_iff (ih : ∀ a ∈ as, ∀ b, order a b = .eq ↔ a.plain = b.plain) :
    orderList as bs = .eq ↔ as.map plain = bs.map plain := by
  induction as generalizing bs with
  | nil => cases bs <;> simp [orderList]
  | cons a as iht =>
    cases bs with
    | nil => simp [orderList]
    | cons b bs =>
      obtain ⟨iha, ihas⟩ := List.forall_mem_cons.mp ih
      rw [orderList, Ordering.then_eq_eq, iha, iht ihas, List.map_cons, List.map_cons,
        List.cons.injEq]

/-- Types compare equal when they are one type once they are made plain. -/
theorem order_eq_eq_iff (a b : Ty) : order a b = .eq ↔ a.plain = b.plain := by
  induction a using ind generalizing b with
  | node a ih =>
    -- Where the elements agree, so do their numbers.
    have hsize (h : a.elements.map plain = b.elements.map plain) : a.size = b.size := by
      simpa [size] using congrArg List.length h
    rw [order_eq, Ordering.then_eq_eq, Ordering.then_eq_eq, orderList_eq_eq_iff ih, plain_eq a,
      plain_eq b, ofParts_inj, Kind.compare_eq_eq_iff, Nat.compare_eq_eq]
    constructor
    · rintro ⟨⟨hkind, -⟩, helements⟩
      exact ⟨hkind, helements⟩
    · rintro ⟨hkind, helements⟩
      exact ⟨⟨hkind, hsize helements⟩, helements⟩

theorem compare_plain (t : Ty) : compare t t.plain = .eq :=
  (order_eq_eq_iff t t.plain).mpr (isPlain_plain t).plain_eq_self.symm

/-- Types compare equal exactly when they differ in nothing but empty
compounds that stand for the atomic type of their kind. Every type
compares equal to one plain type and no other, and for plain types
comparing equal and being equal are the same. -/
theorem compare_eq_iff_plain_eq (a b : Ty) :
    (compare a b = .eq ↔ a.plain = b.plain) ∧
    (∃! p : Ty, p.IsPlain ∧ compare a p = .eq) ∧
    (a.IsPlain → b.IsPlain → (compare a b = .eq ↔ a = b)) := by
  have hplain (p : Ty) : compare a p = .eq ↔ a.plain = p.plain := order_eq_eq_iff a p
  refine ⟨hplain b, ⟨a.plain, ⟨isPlain_plain a, compare_plain a⟩, ?_⟩, ?_⟩
  · rintro p ⟨hp, h⟩
    rw [← hp.plain_eq_self, ← (hplain p).mp h]
  · intro ha hb
    rw [hplain, ha.plain_eq_self, hb.plain_eq_self]

/-- Signatures of atomic types compare equal only to themselves. -/
theorem compare_eq_iff_plain_eq_sample :
    (func .bool [.integer]).IsPlain ∧ (func .bool [.real]).IsPlain ∧
      compare (func .bool [.integer]) (func .bool [.real]) ≠ .eq := by
  have ha : (func .bool [.integer]).IsPlain := .func .bool (List.forall_mem_singleton.mpr .integer)
  have hb : (func .bool [.real]).IsPlain := .func .bool (List.forall_mem_singleton.mpr .real)
  obtain ⟨-, -, h⟩ := compare_eq_iff_plain_eq (func .bool [.integer]) (func .bool [.real])
  exact ⟨ha, hb, fun heq => absurd ((h ha hb).mp heq) (by decide)⟩

/-- The sort of truth values and the empty compound of its kind compare
equal, and are two types. -/
theorem compare_eq_of_ne :
    compare Ty.bool (.compound .bool []) = .eq ∧ Ty.bool ≠ .compound .bool [] := by
  decide

end Ty

end TypedTerms
