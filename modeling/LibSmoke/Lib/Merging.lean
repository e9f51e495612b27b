import LibSmoke.Lib.Framing
import Mathlib.Data.List.Induction
import Mathlib.Data.Fintype.Basic

/-!
# Streams of frames merged piece by piece

Several streams of frames are cut into pieces, and the pieces are put one after
the other into one stream, each stream's in their order. A decoder of the one
stream knows nothing of where a piece came from, so a frame that is cut is lost,
and others with it, when the piece of another stream gets in between.

`decode_merged` says that this is the only way to lose any: when every piece
follows on whole frames of all the other streams, the frames of the one stream
are those of the streams, interleaved.
-/

namespace Framing

variable {κ α β : Type} [DecidableEq κ]

/-- What is tagged `x`, in order. -/
def tagged (x : κ) (l : List (κ × β)) : List β :=
  (l.filter fun e => e.1 = x).map Prod.snd

theorem tagged_append (x : κ) (l m : List (κ × β)) :
    tagged x (l ++ m) = tagged x l ++ tagged x m := by
  rw [tagged, List.filter_append, List.map_append]
  rfl

theorem tagged_map_self (x : κ) (bs : List β) :
    tagged x (bs.map fun b => (x, b)) = bs := by
  induction bs with
  | nil => rfl
  | cons b bs ih =>
      rw [tagged] at ih ⊢
      rw [List.map_cons, List.filter_cons_of_pos (by simp), List.map_cons, ih]

theorem tagged_map_other {x y : κ} (h : y ≠ x) (bs : List β) :
    tagged y (bs.map fun b => (x, b)) = [] := by
  rw [tagged, List.filter_eq_nil_iff.mpr, List.map_nil]
  intro e he
  obtain ⟨b, -, rfl⟩ := List.mem_map.mp he
  simpa using h.symm

theorem tagged_map {γ : Type} (f : β → γ) (x : κ) (l : List (κ × β)) :
    tagged x (l.map (Prod.map id f)) = (tagged x l).map f := by
  rw [tagged, List.filter_map, List.map_map, tagged, List.map_map]
  rfl

/-- The pieces of all streams, one after the other. -/
def merged (log : List (κ × List α)) : List α := (log.map Prod.snd).flatten

/-- The stream of `x`, as far as its pieces go. -/
def streamOf (x : κ) (log : List (κ × List α)) : List α := (tagged x log).flatten

variable (F : Format α)

/-- The stream ends with a frame. -/
def Whole (bs : List α) : Prop := (decode F bs).2 = []

instance (bs : List α) : Decidable (Whole F bs) :=
  decidable_of_iff ((decode F bs).2.isEmpty = true) List.isEmpty_iff

/-- A piece follows on whole frames of all other streams. -/
def Unbroken (log : List (κ × List α)) : Prop :=
  ∀ pre x c post, log = pre ++ (x, c) :: post →
    ∀ y, y ≠ x → Whole F (streamOf y pre)

instance [Fintype κ] (log : List (κ × List α)) : Decidable (Unbroken F log) :=
  decidable_of_iff (∀ i : Fin log.length, ∀ y, y ≠ (log.get i).1 →
      Whole F (streamOf y (log.take i))) (by
    constructor
    · rintro h pre x c post rfl y hy
      have hi : pre.length < (pre ++ (x, c) :: post).length := by
        rw [List.length_append, List.length_cons]
        omega
      have hone := h ⟨pre.length, hi⟩ y (by simpa using hy)
      rwa [List.take_left] at hone
    · intro h i y hy
      have hsplit : log = log.take i ++ ((log.get i).1, (log.get i).2) ::
          log.drop (i + 1) := by
        rw [List.get_eq_getElem, Prod.mk.eta, List.cons_getElem_drop_succ,
          List.take_append_drop]
      exact h _ _ _ _ hsplit y hy)

variable {F}

omit [DecidableEq κ] in
theorem merged_append (l m : List (κ × List α)) :
    merged (l ++ m) = merged l ++ merged m := by
  rw [merged, List.map_append, List.flatten_append]
  rfl

theorem streamOf_append (x : κ) (l m : List (κ × List α)) :
    streamOf x (l ++ m) = streamOf x l ++ streamOf x m := by
  rw [streamOf, tagged_append, List.flatten_append]
  rfl

theorem streamOf_self (x : κ) (c : List α) : streamOf x [(x, c)] = c := by
  have h := tagged_map_self x [c]
  rw [List.map_singleton] at h
  rw [streamOf, h, List.flatten_singleton]

theorem streamOf_other {x y : κ} (h : y ≠ x) (c : List α) :
    streamOf y [(x, c)] = [] := by
  have h := tagged_map_other h [c]
  rw [List.map_singleton] at h
  rw [streamOf, h]
  rfl

/-- What follows on whole frames is decoded on its own. -/
theorem decode_append_of_whole {bs : List α} (h : Whole F bs) (cs : List α) :
    decode F (bs ++ cs) = ((decode F bs).1 ++ (decode F cs).1, (decode F cs).2) := by
  rw [decode_append, h, List.nil_append]

/-- The frames of a stream that goes on after whole frames, or does not go on. -/
theorem decode_append_fst {bs cs : List α} (h : Whole F bs ∨ cs = []) :
    (decode F (bs ++ cs)).1 = (decode F bs).1 ++ (decode F cs).1 := by
  rcases h with hbs | rfl
  · rw [decode_append_of_whole hbs]
  · rw [List.append_nil, decode_nil, List.append_nil]

theorem Whole.of_append {bs cs : List α} (h : Whole F bs) (hall : Whole F (bs ++ cs)) :
    Whole F cs := by
  rwa [Whole, decode_append_of_whole h] at hall

theorem unbroken_nil : Unbroken F ([] : List (κ × List α)) := by
  intro pre x c post h
  cases pre <;> cases h

theorem Unbroken.of_append {l m : List (κ × List α)} (h : Unbroken F (l ++ m)) :
    Unbroken F l := by
  intro pre x c post hl
  refine h pre x c (post ++ m) ?_
  rw [hl, List.append_assoc, List.cons_append]

/-- Dropping what ends with whole frames in every stream that goes on. -/
theorem Unbroken.drop {l m : List (κ × List α)} (h : Unbroken F (l ++ m))
    (hl : ∀ x, Whole F (streamOf x l) ∨ streamOf x m = []) : Unbroken F m := by
  intro pre x c post hm y hy
  have hall := h (l ++ pre) x c post (by rw [hm, List.append_assoc]) y hy
  rw [streamOf_append] at hall
  rcases hl y with hwhole | hnone
  · exact hwhole.of_append hall
  · rw [hm, streamOf_append] at hnone
    rw [(List.append_eq_nil_iff.mp hnone).1]
    rfl

/-- The frames of the merged stream are those of the streams, interleaved, and
what is left over is left over of the one stream that is not at the end of a
frame. -/
theorem decode_merged {log : List (κ × List α)} (h : Unbroken F log) :
    ∃ frames : List (κ × List α),
      (decode F (merged log)).1 = frames.map Prod.snd ∧
      (∀ x, tagged x frames = (decode F (streamOf x log)).1) ∧
      ∀ x, (∀ y, y ≠ x → Whole F (streamOf y log)) →
        (decode F (merged log)).2 = (decode F (streamOf x log)).2 := by
  induction log using List.reverseRecOn with
  | nil => exact ⟨[], rfl, fun x => rfl, fun x _ => rfl⟩
  | append_singleton log e ih =>
      obtain ⟨x, c⟩ := e
      obtain ⟨frames, hall, hlanes, hrest⟩ := ih h.of_append
      have hothers := h log x c [] rfl
      have hmerged : merged (log ++ [(x, c)]) = merged log ++ c := by
        rw [merged_append]
        exact congrArg _ (List.append_nil c)
      have hself : streamOf x (log ++ [(x, c)]) = streamOf x log ++ c := by
        rw [streamOf_append, streamOf_self]
      have hother : ∀ y, y ≠ x →
          streamOf y (log ++ [(x, c)]) = streamOf y log := by
        intro y hy
        rw [streamOf_append, streamOf_other hy, List.append_nil]
      -- the decoder holds what is left over of the stream of `x`
      have hleft := hrest x hothers
      have hdec := decode_append (F := F) (merged log) c
      have hdecx := decode_append (F := F) (streamOf x log) c
      rw [hleft] at hdec
      refine ⟨frames ++ ((decode F ((decode F (streamOf x log)).2 ++ c)).1.map
        fun f => (x, f)), ?_, ?_, ?_⟩
      · rw [hmerged, hdec, hall, List.map_append, List.map_map]
        exact congrArg _ (List.map_id _).symm
      · intro y
        rw [tagged_append]
        by_cases hy : y = x
        · rw [hy, tagged_map_self, hlanes, hself, hdecx]
        · rw [tagged_map_other hy, hlanes, hother y hy, List.append_nil]
      · intro y hy
        by_cases hyx : y = x
        · rw [hyx, hmerged, hself, hdec, hdecx]
        · have hx := hy x (Ne.symm hyx)
          rw [Whole, hself, hdecx] at hx
          rw [hmerged, hdec, hother y hyx, hothers y hyx]
          exact hx

end Framing
