import Mathlib

/-! `buffer.View` and `buffer.VectorisedView` (pkg/tcpip/buffer/view.go) as values. A
view is its bytes. A vectorised view is its list of views, with the `size` it keeps beside
them. The source mutates views in place. Two vectorised views can share the array behind
their slices, and that sharing is not modelled. `View.TrimFront` and `View.CapLength` are
only called inside the bounds of the view, so their slice panics do not arise. -/

namespace Buffer

abbrev View := List UInt8

structure VectorisedView where
  views : List View
  size : ℤ
  deriving DecidableEq, Repr

namespace VectorisedView

/-- `NewVectorisedView`. -/
def newVectorisedView (size : ℤ) (views : List View) : VectorisedView := ⟨views, size⟩

/-- `RemoveFirst`. -/
def removeFirst (vv : VectorisedView) : VectorisedView :=
  match vv.views with
  | [] => vv
  | v :: rest => ⟨rest, vv.size - v.length⟩

/-- `TrimFront`. -/
def trimFront (count : ℤ) (vv : VectorisedView) : VectorisedView :=
  if count > 0 then
    match _hv : vv.views with
    | [] => vv
    | v :: rest =>
      if count < v.length then ⟨v.drop count.toNat :: rest, vv.size - count⟩
      else trimFront (count - v.length) vv.removeFirst
  else vv
termination_by vv.views.length
decreasing_by simp [removeFirst, _hv]

/-- The loop of `CapLength` over the views, with `length` bytes left to keep. -/
def capViews : ℤ → List View → List View
  | _, [] => []
  | length, v :: rest =>
    if v.length ≥ length then (if length = 0 then [] else [v.take length.toNat])
    else v :: capViews (length - v.length) rest

/-- `CapLength`. -/
def capLength (length : ℤ) (vv : VectorisedView) : VectorisedView :=
  let length := if length < 0 then 0 else length
  if vv.size < length then vv else ⟨capViews length vv.views, length⟩

/-- `Clone`, into a fresh array. -/
def clone (vv : VectorisedView) : VectorisedView := ⟨vv.views, vv.size⟩

/-- `First`. -/
def first (vv : VectorisedView) : View := vv.views.headD []

/-- `ToView`. -/
def toView (vv : VectorisedView) : View :=
  match vv.views with
  | [v] => v
  | views => views.foldl (· ++ ·) []

/-- `Append`. -/
def append (vv vv2 : VectorisedView) : VectorisedView :=
  ⟨vv.views ++ vv2.views, vv.size + vv2.size⟩

/-- The bytes of a vectorised view. -/
def bytes (vv : VectorisedView) : List UInt8 := vv.views.flatten

/-- `size` is the total length of the views. -/
def WellSized (vv : VectorisedView) : Prop := vv.size = ((vv.views.map List.length).sum : ℕ)

section Ops

variable {vv : VectorisedView}

theorem views_removeFirst (vv : VectorisedView) : vv.removeFirst.views = vv.views.tail := by
  unfold removeFirst
  split <;> simp_all

theorem WellSized.removeFirst (h : WellSized vv) : WellSized vv.removeFirst := by
  unfold VectorisedView.removeFirst
  split
  · exact h
  · rename_i v rest hv
    simp only [WellSized, hv, List.map_cons, List.sum_cons] at h ⊢
    push_cast at h ⊢
    omega

theorem trimFront_of_nonpos {count : ℤ} (h : count ≤ 0) (vv : VectorisedView) :
    vv.trimFront count = vv := by
  rw [trimFront, if_neg (by omega)]

theorem trimFront_cons {count : ℤ} (hc : 0 < count) (v : View) (rest : List View) (size : ℤ) :
    trimFront count ⟨v :: rest, size⟩ =
      if count < v.length then ⟨v.drop count.toNat :: rest, size - count⟩
      else trimFront (count - v.length) ⟨rest, size - v.length⟩ := by
  rw [trimFront, if_pos hc]
  rfl

/-- `TrimFront` keeps `size` right and drops the first `count` bytes, all of them when
there are fewer. -/
theorem WellSized.trimFront (h : WellSized vv) (count : ℤ) :
    WellSized (vv.trimFront count) ∧ (vv.trimFront count).bytes = vv.bytes.drop count.toNat := by
  obtain ⟨views, size⟩ := vv
  induction views generalizing count size with
  | nil =>
    rw [VectorisedView.trimFront]
    split_ifs <;> simp [h, bytes]
  | cons v rest ih =>
    by_cases hc : 0 < count
    · rw [trimFront_cons hc]
      split_ifs with hlt
      · refine ⟨?_, ?_⟩
        · simp only [WellSized, List.map_cons, List.sum_cons, List.length_drop] at h ⊢
          push_cast at h ⊢
          omega
        · simp only [bytes, List.flatten_cons]
          rw [List.drop_append_of_le_length (by omega)]
      · have hrest : WellSized ⟨rest, size - v.length⟩ := by
          simp only [WellSized, List.map_cons, List.sum_cons] at h ⊢
          push_cast at h ⊢
          omega
        obtain ⟨hw, hb⟩ := ih (count - v.length) (size - v.length) hrest
        refine ⟨hw, ?_⟩
        rw [hb]
        simp only [bytes, List.flatten_cons, List.drop_append]
        rw [List.drop_eq_nil_of_le (show v.length ≤ count.toNat by omega), List.nil_append]
        congr 1
        omega
    · rw [trimFront_of_nonpos (by omega), show count.toNat = 0 by omega, List.drop_zero]
      exact ⟨h, rfl⟩

/-- The loop of `CapLength` keeps the first `length` bytes of views that hold at least
that many. -/
theorem capViews_spec (views : List View) {length : ℤ} (h0 : 0 ≤ length)
    (hle : length ≤ ((views.map List.length).sum : ℕ)) :
    ((capViews length views).map List.length).sum = length ∧
      (capViews length views).flatten = views.flatten.take length.toNat := by
  induction views generalizing length with
  | nil =>
    simp only [List.map_nil, List.sum_nil] at hle
    push_cast at hle
    simp [capViews, show length = 0 by omega]
  | cons v rest ih =>
    simp only [List.map_cons, List.sum_cons] at hle
    simp only [Int.natCast_add] at hle
    rw [capViews]
    split_ifs with hv hz
    · simp [hz]
    · refine ⟨?_, ?_⟩
      · simp only [List.map_cons, List.length_take, List.map_nil, List.sum_cons, List.sum_nil]
        omega
      · rw [List.flatten_cons, List.flatten_cons, List.flatten_nil, List.append_nil,
          List.take_append_of_le_length (by omega)]
    · obtain ⟨hs, hb⟩ := @ih (length - v.length) (by omega) (by omega)
      refine ⟨?_, ?_⟩
      · simp only [List.map_cons, List.sum_cons]
        simp only [Int.natCast_add]
        omega
      · rw [List.flatten_cons, List.flatten_cons, hb, List.take_append,
          List.take_of_length_le (l := v) (by omega)]
        congr 2
        omega

/-- `CapLength` keeps `size` right and keeps the first `length` bytes, none for a
negative `length`. -/
theorem WellSized.capLength (h : WellSized vv) (length : ℤ) :
    WellSized (vv.capLength length) ∧ (vv.capLength length).bytes = vv.bytes.take length.toNat := by
  unfold VectorisedView.capLength
  dsimp only
  generalize hlen : (if length < 0 then 0 else length) = len
  have h0 : 0 ≤ len := by
    rw [← hlen]
    split_ifs <;> omega
  have hl : len.toNat = length.toNat := by
    rw [← hlen]
    split_ifs <;> omega
  by_cases hsize : vv.size < len
  · rw [if_pos hsize]
    refine ⟨h, ?_⟩
    rw [List.take_of_length_le]
    simp only [bytes, List.length_flatten]
    unfold WellSized at h
    omega
  · rw [if_neg hsize]
    obtain ⟨hs, hb⟩ := capViews_spec vv.views h0 (by unfold WellSized at h; omega)
    refine ⟨hs.symm, ?_⟩
    rw [bytes, hb, hl, bytes]

theorem WellSized.append (h : WellSized vv) {vv2 : VectorisedView} (h2 : WellSized vv2) :
    WellSized (vv.append vv2) := by
  simp only [WellSized, VectorisedView.append, List.map_append, List.sum_append] at h h2 ⊢
  simp only [Int.natCast_add]
  omega

theorem bytes_append (vv vv2 : VectorisedView) : (vv.append vv2).bytes = vv.bytes ++ vv2.bytes := by
  simp [bytes, VectorisedView.append]

theorem foldl_append_eq (acc : View) (views : List View) :
    views.foldl (· ++ ·) acc = acc ++ views.flatten := by
  induction views generalizing acc with
  | nil => simp
  | cons v rest ih => rw [List.foldl_cons, ih, List.flatten_cons, List.append_assoc]

/-- `ToView` is the bytes of the views, the one view itself when there is one. -/
theorem toView_eq_bytes (vv : VectorisedView) : vv.toView = vv.bytes := by
  unfold toView bytes
  split
  · rename_i v hv
    rw [hv, List.flatten_singleton]
  · rw [foldl_append_eq, List.nil_append]

end Ops

/-- The vectorised views that `NewVectorisedView` of views and their total length builds
and `TrimFront`, `CapLength`, `RemoveFirst`, `Append` and `Clone` transform. -/
inductive Built : VectorisedView → Prop
  | new (views : List View) :
      Built (newVectorisedView ((views.map List.length).sum : ℕ) views)
  | trimFront {vv : VectorisedView} (count : ℤ) : Built vv → Built (vv.trimFront count)
  | capLength {vv : VectorisedView} (length : ℤ) : Built vv → Built (vv.capLength length)
  | removeFirst {vv : VectorisedView} : Built vv → Built vv.removeFirst
  | append {vv vv2 : VectorisedView} : Built vv → Built vv2 → Built (vv.append vv2)
  | clone {vv : VectorisedView} : Built vv → Built vv.clone

theorem Built.wellSized {vv : VectorisedView} (h : Built vv) : WellSized vv := by
  induction h with
  | new views => rfl
  | trimFront count _ ih => exact (ih.trimFront count).1
  | capLength length _ ih => exact (ih.capLength length).1
  | removeFirst _ ih => exact ih.removeFirst
  | append _ _ ih ih2 => exact ih.append ih2
  | clone _ ih => exact ih

theorem WellSized.length_bytes {vv : VectorisedView} (h : WellSized vv) :
    (vv.bytes.length : ℤ) = vv.size := by
  rw [h, bytes, List.length_flatten]

/-- A vectorised view built from views and their total length, and then trimmed, capped,
cut at its first view, appended to and cloned, keeps `size` equal to the total length of its
views, and its operations act on its bytes as on a byte string. -/
theorem built_size_and_bytes {vv : VectorisedView} (h : Built vv) :
    vv.size = ((vv.views.map List.length).sum : ℕ) ∧
      (∀ k : ℤ, (vv.trimFront k).bytes = vv.bytes.drop (min k vv.size).toNat) ∧
      (∀ k : ℤ, (vv.capLength k).bytes = vv.bytes.take (max 0 (min k vv.size)).toNat) ∧
      (∀ vv2, Built vv2 → (vv.append vv2).bytes = vv.bytes ++ vv2.bytes) ∧
      vv.removeFirst.views = vv.views.tail ∧ vv.clone = vv ∧ vv.toView = vv.bytes := by
  have hw := h.wellSized
  have hlen := hw.length_bytes
  refine ⟨hw, fun k => ?_, fun k => ?_, fun vv2 _ => bytes_append vv vv2, views_removeFirst vv,
    rfl, toView_eq_bytes vv⟩
  · rw [(hw.trimFront k).2]
    by_cases hk : k ≤ vv.size
    · congr 1
      omega
    · rw [List.drop_eq_nil_of_le (by omega), List.drop_eq_nil_of_le (by omega)]
  · rw [(hw.capLength k).2]
    by_cases hk : k ≤ vv.size
    · congr 1
      omega
    · rw [List.take_of_length_le (by omega), List.take_of_length_le (by omega)]

theorem built_size_and_bytes_two_views :
    Built (newVectorisedView 3 [[1, 2], [3]]) ∧
      ((newVectorisedView 3 [[1, 2], [3]]).trimFront 1).bytes = [2, 3] := by
  have hb : Built (newVectorisedView 3 [[1, 2], [3]]) := Built.new [[1, 2], [3]]
  refine ⟨hb, ?_⟩
  rw [(built_size_and_bytes hb).2.1 1]
  decide

end VectorisedView

end Buffer
