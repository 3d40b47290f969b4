/-
TapeCompiler.Proofs.Delivery — what arrives in a sink without a limit.

Such a sink takes every block, so the bytes of the whole text arrive, and
how the emission ended is how the delivery ends (`deliver_of_unlimited`).
An emission is made of pieces; its text is the pieces in a row, as
characters and as bytes.
-/
import TapeCompiler.Emission

namespace TapeCompiler

/-! ## 1. Sinks without a limit -/

namespace Sink

variable {s : Sink}

/-- A block arrives as a whole. -/
theorem put_of_unlimited (h : s.limit = none) (block : Array UInt8) :
    s.put block = ({ s with written := s.written ++ block }, none) := by
  simp [put, passesThrough, room, h]

/-- The blocks arrive in a row. -/
theorem putAll_of_unlimited (h : s.limit = none) (blocks : List (Array UInt8)) :
    s.putAll blocks = ({ s with written := blocks.foldl (· ++ ·) s.written }, none) := by
  induction blocks generalizing s with
  | nil => rfl
  | cons block blocks ih =>
    rw [putAll, put_of_unlimited h]
    exact ih h

end Sink

/-! ## 2. The text of an emission -/

namespace Emission

theorem text_eq_join (e : Emission String) : e.text = String.join e.pieces.toList :=
  (Array.foldl_toList _).symm

/-- A text that is rendered piece by piece is the join of its pieces. -/
theorem text_map {α : Type} (e : Emission α) (render : α → String) :
    (e.map render).text = String.join (e.pieces.toList.map render) := by
  rw [text_eq_join]
  exact congrArg String.join Array.toList_map

theorem toList_text (e : Emission String) :
    e.text.toList = e.pieces.toList.flatMap String.toList := by
  rw [text_eq_join, String.toList_join]

/-- The bytes of a row of strings are their bytes in a row. -/
theorem foldl_toUTF8 (pieces : List String) (done : String) (written : Array UInt8) :
    (pieces.map (fun piece => piece.toUTF8.data)).foldl (· ++ ·) (written ++ done.toUTF8.data) =
      written ++ (pieces.foldl (· ++ ·) done).toUTF8.data := by
  induction pieces generalizing done with
  | nil => rfl
  | cons piece pieces ih =>
    rw [List.map_cons, List.foldl_cons, List.foldl_cons, ← ih]
    simp [Array.append_assoc]

/-- **All of the text arrives** in a sink without a limit. -/
theorem deliver_of_unlimited (e : Emission String) {sink : Sink} (h : sink.limit = none) :
    e.deliver sink =
      ⟨{ sink with written := sink.written ++ e.text.toUTF8.data }, e.outcome.mapError .fault⟩ := by
  have hbytes := foldl_toUTF8 e.pieces.toList "" sink.written
  have hempty : sink.written ++ "".toUTF8.data = sink.written := by simp
  rw [hempty] at hbytes
  rw [deliver, Sink.putAll_of_unlimited h, hbytes, text_eq_join]
  rfl

end Emission

end TapeCompiler
