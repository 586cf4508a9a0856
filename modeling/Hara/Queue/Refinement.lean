import Hara.Queue.Standard
import Hara.Vector.Layout

/-!
# The queue and the list of its values

## The invariant

The segments have exactly 1024 values, the tail has fewer, and the head has 1024 as soon as
anything comes after it. The offset stays below 1024 and within the head.

## Where it fails

With an empty tail and a segment in the buffer, `pop_last_value` makes the segment the tail and
counts one value less, but the value stays. From there on the size and the values differ. A run
agrees with the model exactly when no such step is taken.
-/

namespace Hara.Queue

open Hara.Lib Standard
open List hiding get head iter tail
open Hara.Vector (Represents)

variable {E : Type} {queue : Standard E} {values : List E}

/-- The parts of a queue. -/
structure Parts (queue : Standard E) (head : List E) (segments : List (List E)) (tail : List E) :
    Prop where
  head_rep : Represents queue.head head
  tail_rep : Represents queue.tail tail
  buffer_rep : List.Forall₂ Represents queue.buffer segments
  full : ∀ segment ∈ segments, segment.length = 1024
  tail_lt : tail.length < 1024
  head_le : head.length ≤ 1024
  offset_lt : queue.offset < 1024
  offset_le : queue.offset ≤ head.length
  head_full : segments ≠ [] ∨ tail ≠ [] → head.length = 1024
  size_eq : queue.size = (head.drop queue.offset ++ segments.flatten ++ tail).length

/-- The queue has these values. -/
def Holds (queue : Standard E) (values : List E) : Prop :=
  ∃ head segments tail, Parts queue head segments tail ∧
    values = head.drop queue.offset ++ segments.flatten ++ tail

/-- A queue whose last value would stay: there is a segment, and no tail after it. -/
def Keeps (queue : Standard E) : Prop :=
  queue.size ≠ 0 ∧ queue.tail.len = 0 ∧ queue.buffer ≠ []

namespace Parts

variable {head tail : List E} {segments : List (List E)}

section

variable (h : Parts queue head segments tail)

include h

theorem length_buffer : queue.buffer.length = segments.length := h.buffer_rep.length_eq

theorem size_eq_add :
    queue.size = head.length - queue.offset + segments.length * 1024 + tail.length := by
  rw [h.size_eq, length_append, length_append, length_drop, length_flatten_of_forall h.full]

theorem buffer_eq_nil : queue.buffer = [] ↔ segments = [] := by
  rw [← length_eq_zero_iff, h.length_buffer, length_eq_zero_iff]

/-- Nothing follows a head with room. -/
theorem eq_nil_of_lt (hlt : head.length < 1024) :
    segments = [] ∧ tail = [] := by
  constructor
  · by_contra hne
    exact absurd (h.head_full (.inl hne)) (ne_of_lt hlt)
  · by_contra hne
    exact absurd (h.head_full (.inr hne)) (ne_of_lt hlt)

theorem segment_ne_nil {segment : List E} (hmem : segment ∈ segments) : segment ≠ [] := by
  rintro rfl
  cases h.full [] hmem

theorem getElem?_buffer {i : ℕ} (hi : i < segments.length) :
    ∃ vector, queue.buffer[i]? = some vector ∧ Represents vector segments[i] := by
  obtain ⟨hlength, hget⟩ := forall₂_iff_get.mp h.buffer_rep
  have hi' : i < queue.buffer.length := hlength ▸ hi
  exact ⟨queue.buffer[i], getElem?_eq_getElem hi', hget i hi' hi⟩

end

/-- The last vector of the buffer has the last segment. -/
theorem buffer_concat {segment : List E} (h : Parts queue head (segments ++ [segment]) tail) :
    ∃ buffer vector, queue.buffer = buffer ++ [vector] ∧
      List.Forall₂ Represents buffer segments ∧ Represents vector segment := by
  have hlast := forall₂_drop_append _ _ _ h.buffer_rep
  have hfirst := forall₂_take_append _ _ _ h.buffer_rep
  obtain ⟨vector, rest, hvector, hrest, hdrop⟩ := forall₂_cons_right_iff.mp hlast
  obtain rfl := forall₂_nil_right_iff.mp hrest
  refine ⟨queue.buffer.take segments.length, vector, ?_, hfirst, hvector⟩
  rw [← hdrop, take_append_drop]

/-- A head with nothing after the offset is followed by nothing. -/
theorem offset_lt_length (h : Parts queue head segments tail)
    (hne : head.drop queue.offset ++ segments.flatten ++ tail ≠ []) :
    queue.offset < head.length := by
  by_contra hge
  have heq := Nat.le_antisymm h.offset_le (Nat.le_of_not_lt hge)
  obtain ⟨rfl, rfl⟩ := h.eq_nil_of_lt (heq ▸ h.offset_lt)
  exact hne (by rw [heq]; simp)

end Parts

theorem maxLength_eq : maxLength = 1024 := rfl

namespace Holds

variable (h : Holds queue values)

include h

theorem size_eq : queue.size = values.length := by
  obtain ⟨head, segments, tail, hparts, rfl⟩ := h
  exact hparts.size_eq

omit h in
/-- A head that nothing follows. -/
theorem of_head {head : List E} (hhead : Represents queue.head head)
    (htail : Represents queue.tail []) (hbuffer : queue.buffer = []) (hle : head.length ≤ 1024)
    (hlt : queue.offset < 1024) (hoffset : queue.offset ≤ head.length)
    (hsize : queue.size = (head.drop queue.offset).length) :
    Holds queue (head.drop queue.offset) := by
  refine ⟨head, [], [], ?_, by simp⟩
  exact ⟨hhead, htail, hbuffer ▸ .nil, forall_mem_nil _, Nat.succ_pos 1023, hle, hlt, hoffset,
    by simp, by simpa using hsize⟩

omit h in
theorem new : Holds (Standard.new : Standard E) [] :=
  of_head .new .new rfl (Nat.zero_le 1024) (Nat.succ_pos 1023) le_rfl rfl

/-! ## Reading -/

omit h in
theorem mapM_toVec {buffer : List (Vector.Standard E)} {segments : List (List E)}
    (h : List.Forall₂ Represents buffer segments) :
    buffer.mapM Vector.Standard.toVec = .ok segments :=
  Except.mapM_eq_ok.mpr (h.imp fun _ _ ↦ Represents.toVec_eq)

theorem iter_eq : queue.iter = .ok values := by
  obtain ⟨head, segments, tail, hparts, rfl⟩ := h
  rw [Standard.iter, hparts.head_rep.toVec_eq, hparts.tail_rep.toVec_eq,
    mapM_toVec hparts.buffer_rep]
  rfl

theorem peekFirst_eq : queue.peekFirst = .ok values.head? := by
  rw [peekFirst, h.size_eq]
  by_cases hnil : values = []
  · rw [hnil]
    rfl
  · obtain ⟨head, segments, tail, hparts, rfl⟩ := h
    have hpos := hparts.offset_lt_length hnil
    rw [hparts.head_rep.get_eq, drop_eq_getElem_cons hpos, getElem?_eq_getElem hpos]
    rfl

omit h in
theorem lastOf_eq {vector : Vector.Standard E} {part : List E} (h : Represents vector part)
    (hne : part ≠ []) : lastOf vector = .ok part.getLast? := by
  have hpos := length_pos_of_ne_nil hne
  rw [lastOf, h.len_eq, subtract_of_le hpos]
  rw [getLast?_eq_getElem?]
  exact h.get_eq _

theorem peekLast_eq : queue.peekLast = .ok values.getLast? := by
  rw [peekLast, h.size_eq]
  by_cases hnil : values = []
  · rw [hnil]
    rfl
  rw [if_neg fun hzero ↦ hnil (eq_nil_of_length_eq_zero hzero)]
  obtain ⟨head, segments, tail, hparts, rfl⟩ := h
  rw [hparts.tail_rep.len_eq]
  by_cases htail : tail = []
  · subst htail
    rw [if_neg fun hne ↦ hne rfl, append_nil]
    rw [append_nil] at hnil
    rcases eq_nil_or_concat segments with rfl | ⟨segments, segment, rfl⟩
    · rw [if_neg fun hne ↦ hne (hparts.buffer_eq_nil.mpr rfl), flatten_nil, append_nil]
      rw [flatten_nil, append_nil] at hnil
      rw [lastOf_eq hparts.head_rep fun hhead ↦ hnil (by rw [hhead, drop_nil]),
        getLast?_drop, if_neg fun hle ↦ hnil (drop_eq_nil_of_le hle)]
    · rw [concat_eq_append] at *
      obtain ⟨buffer, vector, hbuffer, _, hvector⟩ := hparts.buffer_concat
      have hne : segment ≠ [] := hparts.segment_ne_nil (by simp)
      rw [if_pos (by rw [hbuffer]; simp), hbuffer, length_append, length_singleton,
        Nat.add_sub_cancel, getElem?_concat_length, flatten_append,
        flatten_singleton, ← append_assoc, getLast?_append_of_ne_nil _ hne]
      exact lastOf_eq hvector hne
  · rw [if_pos fun hzero ↦ htail (eq_nil_of_length_eq_zero hzero), lastOf_eq hparts.tail_rep htail,
      getLast?_append_of_ne_nil _ htail]

theorem get_eq (index : ℕ) : queue.get index = .ok values[index]? := by
  rw [Standard.get, h.size_eq, maxLength_eq]
  by_cases hindex : index ≥ values.length
  · rw [if_pos hindex, getElem?_eq_none hindex]
  rw [if_neg hindex]
  obtain ⟨head, segments, tail, hparts, rfl⟩ := h
  have hdrop : (head.drop queue.offset).length = head.length - queue.offset := length_drop
  rw [hparts.head_rep.len_eq, append_assoc]
  by_cases hhead : index < head.length - queue.offset
  · rw [if_pos hhead, hparts.head_rep.get_eq, getElem?_append_left (hdrop ▸ hhead), getElem?_drop]
  rw [if_neg hhead, getElem?_append_right (hdrop ▸ Nat.le_of_not_lt hhead), hdrop]
  generalize hafter : index - (head.length - queue.offset) = after
  have hsegments := length_flatten_of_forall hparts.full
  have hsplit : (segments.flatten ++ tail)[after]? =
      (chunk 1024 (segments.flatten ++ tail) (after / 1024))[after % 1024]? :=
    (getElem?_chunk_div (by decide)).symm
  rw [hsplit, hparts.length_buffer]
  by_cases hchunk : after / 1024 < segments.length
  · obtain ⟨vector, hvector, hrep⟩ := hparts.getElem?_buffer hchunk
    rw [if_pos hchunk, hvector, chunk_flatten_append hparts.full (getElem?_eq_getElem hchunk)]
    exact hrep.get_eq _
  · have hlast : after / 1024 = segments.length := by
      have htail := hparts.tail_lt
      simp only [length_append] at hindex
      omega
    rw [if_neg hchunk, hlast, chunk_flatten_append_length hparts.full (hparts.tail_lt.le),
      hparts.tail_rep.get_eq]

/-! ## Pushing -/

theorem pushLast (value : E) :
    ∃ queue', queue.pushLast value = .ok queue' ∧ Holds queue' (values ++ [value]) ∧
      queue'.offset = queue.offset := by
  obtain ⟨head, segments, tail, hparts, rfl⟩ := h
  have hsize := hparts.size_eq_add
  have hoffset := hparts.offset_lt
  have hle := hparts.offset_le
  have htail := hparts.tail_lt
  rw [Standard.pushLast, maxLength_eq, subtract_of_le (hoffset.le)]
  simp only [bind, Except.bind]
  by_cases hspace : queue.size < 1024 - queue.offset
  · -- the head has room, so nothing follows it
    have hlt : head.length < 1024 := by omega
    obtain ⟨rfl, rfl⟩ := hparts.eq_nil_of_lt hlt
    obtain ⟨head', hhead', hrep⟩ := hparts.head_rep.pushLast value
    rw [if_pos hspace, hhead']
    rw [flatten_nil, append_nil, append_nil, ← drop_append_of_le_length hle]
    refine ⟨_, rfl, of_head hrep hparts.tail_rep (hparts.buffer_eq_nil.mpr rfl) ?_ hoffset ?_ ?_,
      rfl⟩
    · rw [length_append]
      exact hlt
    · rw [length_append]
      exact Nat.le_succ_of_le hle
    · simp only [drop_append_of_le_length hle, length_append, length_drop, length_singleton, hsize,
        length_nil]
  · -- a shorter head would have had room
    have hfull : head.length = 1024 := by
      by_contra hne
      have hhead := hparts.head_le
      obtain ⟨rfl, rfl⟩ := hparts.eq_nil_of_lt (Nat.lt_of_le_of_ne hhead hne)
      simp only [length_nil] at hsize
      omega
    obtain ⟨tail', htail', hrep⟩ := hparts.tail_rep.pushLast value
    rw [if_neg hspace, htail']
    simp only [hrep.len_eq, length_append, length_singleton]
    by_cases hroom : tail.length + 1 < 1024
    · rw [if_pos hroom]
      refine ⟨_, rfl, ⟨head, segments, tail ++ [value], ?_, (append_assoc _ _ _)⟩, rfl⟩
      refine { hparts with
        tail_rep := hrep, tail_lt := ?_, head_full := fun _ ↦ hfull, size_eq := ?_ }
      · rw [length_append]
        exact hroom
      · rw [← append_assoc, length_append, ← hparts.size_eq]
        rfl
    · rw [if_neg hroom]
      refine ⟨_, rfl, ⟨head, segments ++ [tail ++ [value]], [], ?_, ?_⟩, rfl⟩
      · refine { hparts with
          tail_rep := .new, buffer_rep := rel_append hparts.buffer_rep (.cons hrep .nil),
          full := ?_, tail_lt := Nat.succ_pos 1023, head_full := fun _ ↦ hfull, size_eq := ?_ }
        · refine forall_mem_append.mpr ⟨hparts.full, forall_mem_singleton.mpr ?_⟩
          rw [length_append, length_singleton]
          omega
        · rw [flatten_append, flatten_singleton, append_nil, ← append_assoc, ← append_assoc,
            length_append, ← hparts.size_eq]
          rfl
      · simp only [flatten_append, flatten_singleton, append_nil, append_assoc]

omit h in
theorem fromIter_spec :
    ∃ queue, fromIter values = .ok queue ∧ Holds queue values ∧ queue.offset = 0 := by
  have hstep {queue : Standard E} {before : List E} (value : E)
      (h : Holds queue before ∧ queue.offset = 0) : ∃ queue', queue.pushLast value = .ok queue' ∧
        Holds queue' (before ++ [value]) ∧ queue'.offset = 0 := by
    obtain ⟨queue', hpush, hholds, hsame⟩ := h.1.pushLast value
    exact ⟨queue', hpush, hholds, hsame.trans h.2⟩
  have hfold := Except.exists_foldlM
    (R := fun queue before ↦ Holds queue before ∧ queue.offset = 0) hstep ⟨new, rfl⟩ values
  rwa [foldl_append_eq_append, nil_append, ← flatMap_def, flatMap_singleton'] at hfold

theorem pushFirst {value : E} :
    ∃ queue', queue.pushFirst value = .ok queue' ∧ Holds queue' (value :: values) := by
  obtain ⟨queue', hfrom, hholds, _⟩ := fromIter_spec
  refine ⟨queue', ?_, hholds⟩
  rw [Standard.pushFirst, h.iter_eq]
  exact hfrom

/-! ## Popping -/

theorem popFirstValue : ∃ queue', queue.popFirstValue = .ok queue' ∧ Holds queue' values.tail := by
  rw [Standard.popFirstValue, h.size_eq, maxLength_eq]
  by_cases hnil : values = []
  · subst hnil
    exact ⟨queue, rfl, h⟩
  rw [if_neg fun hzero ↦ hnil (eq_nil_of_length_eq_zero hzero)]
  obtain ⟨head, segments, tail, hparts, rfl⟩ := h
  have hlt := hparts.offset_lt_length hnil
  have htail : (head.drop queue.offset ++ segments.flatten ++ tail).tail =
      head.drop (queue.offset + 1) ++ segments.flatten ++ tail := by
    rw [drop_eq_getElem_cons hlt]
    rfl
  have hcount : (head.drop (queue.offset + 1) ++ segments.flatten ++ tail).length =
      (head.drop queue.offset ++ segments.flatten ++ tail).length - 1 := by
    rw [← htail, length_tail]
  rw [htail, ← hcount]
  by_cases hoffset : queue.offset + 1 < 1024
  · rw [if_pos hoffset]
    refine ⟨_, rfl, head, segments, tail, ?_, rfl⟩
    exact { hparts with offset_lt := hoffset, offset_le := hlt, size_eq := rfl }
  · -- the head is used up
    have hused : head.drop (queue.offset + 1) = [] :=
      drop_eq_nil_of_le (hparts.head_le.trans (Nat.le_of_not_lt hoffset))
    rw [if_neg hoffset, hused]
    cases segments with
    | nil =>
      rw [hparts.buffer_eq_nil.mpr rfl]
      exact ⟨_, rfl, of_head hparts.tail_rep .new rfl hparts.tail_lt.le (Nat.succ_pos 1023)
        (Nat.zero_le _) rfl⟩
    | cons segment segments =>
      obtain ⟨vector, buffer, hvector, hbuffer, heq⟩ := forall₂_cons_right_iff.mp hparts.buffer_rep
      obtain ⟨hsegment, hfull⟩ := forall_mem_cons.mp hparts.full
      rw [heq]
      refine ⟨_, rfl, segment, segments, tail, ?_, by simp⟩
      exact { hparts with
        head_rep := hvector, buffer_rep := hbuffer, full := hfull, head_le := hsegment.le,
        offset_lt := Nat.succ_pos 1023, offset_le := Nat.zero_le _,
        head_full := fun _ ↦ hsegment, size_eq := by simp }

theorem popLastValue (hdrops : ¬ Keeps queue) :
    ∃ queue', queue.popLastValue = .ok queue' ∧ Holds queue' values.dropLast := by
  have hlen := h.size_eq
  by_cases hzero : queue.size = 0
  · obtain rfl := eq_nil_of_length_eq_zero (hlen ▸ hzero)
    exact ⟨queue, by rw [Standard.popLastValue, if_pos hzero], h⟩
  have hnil : values ≠ [] := fun hnil ↦ hzero (by rw [hlen, hnil]; rfl)
  obtain ⟨head, segments, tail, hparts, rfl⟩ := h
  have hcount : (head.drop queue.offset ++ segments.flatten ++ tail).dropLast.length =
      queue.size - 1 := by
    rw [length_dropLast, hlen]
  rw [Standard.popLastValue, if_neg hzero, hparts.tail_rep.len_eq]
  by_cases htail : tail = []
  · subst htail
    have hbuffer : queue.buffer = [] := by
      by_contra hne
      exact hdrops ⟨hzero, hparts.tail_rep.len_eq, hne⟩
    obtain rfl := hparts.buffer_eq_nil.mp hbuffer
    have hlt := hparts.offset_lt_length hnil
    have hhead : head ≠ [] := ne_nil_of_length_pos (Nat.zero_lt_of_lt hlt)
    obtain ⟨head', hpop, hrep⟩ := hparts.head_rep.popLastValue hhead
    rw [if_pos hbuffer, hpop]
    have hdrop : (head.drop queue.offset ++ ([] : List (List E)).flatten ++ []).dropLast =
        head.dropLast.drop queue.offset := by
      rw [flatten_nil, append_nil, append_nil, dropLast_eq_take, dropLast_eq_take, drop_take,
        length_drop]
      congr 1
      omega
    rw [hdrop] at hcount ⊢
    refine ⟨_, rfl, of_head hrep hparts.tail_rep hbuffer ?_ hparts.offset_lt ?_ hcount.symm⟩
    · rw [length_dropLast]
      exact (Nat.sub_le _ _).trans hparts.head_le
    · rw [length_dropLast]
      exact Nat.le_sub_one_of_lt hlt
  · obtain ⟨tail', hpop, hrep⟩ := hparts.tail_rep.popLastValue htail
    rw [if_pos fun hempty ↦ htail (eq_nil_of_length_eq_zero hempty), hpop]
    rw [dropLast_append_of_ne_nil htail] at hcount ⊢
    refine ⟨_, rfl, head, segments, tail.dropLast, ?_, rfl⟩
    refine { hparts with
      tail_rep := hrep, tail_lt := ?_, head_full := fun _ ↦ hparts.head_full (.inr htail),
      size_eq := hcount.symm }
    rw [length_dropLast]
    exact (Nat.sub_le _ _).trans_lt hparts.tail_lt

/-- The value stays, and the size is one less. -/
theorem popLastValue_of_keeps (hkeeps : Keeps queue) :
    ∃ queue', queue.popLastValue = .ok queue' ∧ queue'.len = values.length - 1 ∧
      queue'.iter = .ok values := by
  have hlen := h.size_eq
  obtain ⟨hzero, hempty, hbuffer⟩ := hkeeps
  obtain ⟨head, segments, tail, hparts, rfl⟩ := h
  have htail : tail = [] := by
    rw [hparts.tail_rep.len_eq] at hempty
    exact eq_nil_of_length_eq_zero hempty
  subst htail
  rcases eq_nil_or_concat segments with rfl | ⟨segments, segment, rfl⟩
  · exact absurd (hparts.buffer_eq_nil.mpr rfl) hbuffer
  rw [concat_eq_append] at *
  obtain ⟨buffer, vector, heq, hrest, hvector⟩ := hparts.buffer_concat
  rw [Standard.popLastValue, if_neg hzero, if_neg (not_not.mpr hempty), if_neg hbuffer, heq,
    length_append, length_singleton, Nat.add_sub_cancel, itemAt_of_getElem? getElem?_concat_length,
    dropLast_concat]
  refine ⟨_, rfl, by rw [← hlen]; rfl, ?_⟩
  simp only [Standard.iter, hparts.head_rep.toVec_eq, hvector.toVec_eq, mapM_toVec hrest,
    flatten_append, flatten_singleton, append_nil, append_assoc]
  rfl

end Holds

/-! ## Runs -/

inductive Op (E : Type) where
  | pushLast (value : E)
  | pushFirst (value : E)
  | popFirstValue
  | popLastValue

def Op.apply (queue : Standard E) : Op E → Except Fault (Standard E)
  | pushLast value => queue.pushLast value
  | pushFirst value => queue.pushFirst value
  | popFirstValue => queue.popFirstValue
  | popLastValue => queue.popLastValue

/-- The operation on the list of the values. -/
def Op.model (values : List E) : Op E → List E
  | pushLast value => values ++ [value]
  | pushFirst value => value :: values
  | popFirstValue => values.tail
  | popLastValue => values.dropLast

/-- The queue reads as the list. -/
structure Refines (queue : Standard E) (values : List E) : Prop where
  len : queue.len = values.length
  get : ∀ index, queue.get index = .ok values[index]?
  peekFirst : queue.peekFirst = .ok values.head?
  peekLast : queue.peekLast = .ok values.getLast?
  iter : queue.iter = .ok values

/-- The queue reads as the list before the operations and after each of them. -/
def Tracks (queue : Standard E) (values : List E) : List (Op E) → Prop
  | [] => Refines queue values
  | op :: ops => Refines queue values ∧
      ∃ queue', op.apply queue = .ok queue' ∧ Tracks queue' (op.model values) ops

/-- The last value is never popped from behind a segment with an empty tail. -/
def Admissible (queue : Standard E) : List (Op E) → Prop
  | [] => True
  | op :: ops => (op = .popLastValue → ¬ Keeps queue) ∧
      ∀ queue', op.apply queue = .ok queue' → Admissible queue' ops

theorem Holds.refines (h : Holds queue values) : Refines queue values where
  len := h.size_eq
  get := h.get_eq
  peekFirst := h.peekFirst_eq
  peekLast := h.peekLast_eq
  iter := h.iter_eq

theorem Holds.apply (h : Holds queue values) {op : Op E}
    (hop : op = .popLastValue → ¬ Keeps queue) :
    ∃ queue', op.apply queue = .ok queue' ∧ Holds queue' (op.model values) := by
  cases op with
  | pushLast value =>
    obtain ⟨queue', hpush, hholds, _⟩ := h.pushLast value
    exact ⟨queue', hpush, hholds⟩
  | pushFirst value => exact h.pushFirst
  | popFirstValue => exact h.popFirstValue
  | popLastValue => exact h.popLastValue (hop rfl)

/-- After the step that keeps the last value the queue lists a value too many. -/
theorem Holds.not_keeps (h : Holds queue values) {queue' : Standard E}
    (hpop : queue.popLastValue = .ok queue') (hrefines : Refines queue' values.dropLast) :
    ¬ Keeps queue := by
  intro hkeeps
  obtain ⟨queue'', hpop', _, hiter⟩ := h.popLastValue_of_keeps hkeeps
  obtain rfl := Except.ok.inj (hpop.symm.trans hpop')
  have heq : values.dropLast = values := Except.ok.inj (hrefines.iter.symm.trans hiter)
  have hlength := congrArg List.length heq
  have hlen := h.size_eq
  have hpos := hkeeps.1
  rw [length_dropLast] at hlength
  omega

theorem Tracks.refines {ops : List (Op E)} (h : Tracks queue values ops) :
    Refines queue values := by
  cases ops with
  | nil => exact h
  | cons op ops => exact h.1

theorem Holds.admissible_iff_tracks (h : Holds queue values) {ops : List (Op E)} :
    Admissible queue ops ↔ Tracks queue values ops := by
  induction ops generalizing queue values with
  | nil => exact iff_of_true trivial h.refines
  | cons op ops ih =>
    constructor
    · rintro ⟨hop, hrest⟩
      obtain ⟨queue', happly, hholds⟩ := h.apply hop
      exact ⟨h.refines, queue', happly, (ih hholds).mp (hrest queue' happly)⟩
    · rintro ⟨_, queue', happly, htracks⟩
      have hop : op = .popLastValue → ¬ Keeps queue := by
        rintro rfl
        exact h.not_keeps happly htracks.refines
      refine ⟨hop, fun queue'' happly' ↦ ?_⟩
      obtain ⟨queue₁, happly₁, hholds⟩ := h.apply hop
      obtain rfl := Except.ok.inj (happly.symm.trans happly₁)
      obtain rfl := Except.ok.inj (happly.symm.trans happly')
      exact (ih hholds).mpr htracks

/-- A run from the empty queue reads as the list of the model at every point exactly when the last
value is never popped from behind a segment with an empty tail. -/
theorem queue_tracks_iff (ops : List (Op E)) :
    Admissible Standard.new ops ↔ Tracks Standard.new [] ops :=
  Holds.new.admissible_iff_tracks

/-- Two full segments and a pop: the size is one less and all the values are still there. -/
theorem popLastValue_after_2048 :
    ∃ queue queue' : Standard ℕ, fromIter (List.range 2048) = .ok queue ∧
      queue.popLastValue = .ok queue' ∧ queue'.len = 2047 ∧
      queue'.iter = .ok (List.range 2048) := by
  obtain ⟨queue, hfrom, hholds, hoffset⟩ := Holds.fromIter_spec
  have hlen : queue.size = 2048 := hholds.size_eq.trans length_range
  have hkeeps : Keeps queue := by
    obtain ⟨head, segments, tail, hparts, _⟩ := hholds
    have hsize := hparts.size_eq_add
    have hhead := hparts.head_le
    have htail := hparts.tail_lt
    -- the head is full, so what is left is one segment
    have hone : segments.length = 1 ∧ tail.length = 0 := by
      by_cases hnil : segments.length = 0 ∧ tail.length = 0
      · omega
      · have hfull : head.length = 1024 := by
          refine hparts.head_full ?_
          by_contra hboth
          rw [not_or, not_not, not_not] at hboth
          exact hnil ⟨by rw [hboth.1]; rfl, by rw [hboth.2]; rfl⟩
        omega
    refine ⟨by omega, by rw [hparts.tail_rep.len_eq, hone.2], ?_⟩
    intro hbuffer
    rw [hparts.buffer_eq_nil.mp hbuffer] at hone
    cases hone.1
  obtain ⟨queue', hpop, hsize, hiter⟩ := hholds.popLastValue_of_keeps hkeeps
  exact ⟨queue, queue', hfrom, hpop, hsize.trans (by rw [length_range]), hiter⟩

end Hara.Queue
