import Regraft.Guard.Segment
/-!
# The stock view of a file

The stock lines of a file are what is left when every segment is cleared: additions are gone, deleted
lines are restored. `stockView` also gives each segment its anchor, the place in the stock lines where
it belongs, and `stockSources` says from which live line every stock line comes.
-/
namespace Regraft

/-- The lines from `start` up to `stop`. -/
def span (lines : List Text) (start stop : Nat) : List Text :=
  (lines.take stop).drop start

/-- The stock lines from `cursor` on. -/
def stockLinesFrom (lines : List Text) : Nat → List Segment → List Text
  | cursor, [] => lines.drop cursor
  | cursor, s :: rest => span lines cursor s.start ++ s.stock ++ stockLinesFrom lines s.stop rest

/-- The stock lines of a file with these segments. -/
def stockLines (lines : List Text) (segments : List Segment) : List Text :=
  stockLinesFrom lines 0 segments

/-- The anchors of segments, where `cursor` is the next live line and `count` the number of stock lines
before it. -/
def anchorsFrom : Nat → Nat → List Segment → List Nat
  | _, _, [] => []
  | cursor, count, s :: rest =>
    let anchor := count + (s.start - cursor)
    anchor :: anchorsFrom s.stop (anchor + s.stock.length) rest

/-- Where each segment's stock extent begins in the stock lines. -/
def anchors (segments : List Segment) : List Nat := anchorsFrom 0 0 segments

/-- The live lines that a segment's stock lines stand on: behind the opening guard comment, except that
a trailing guard has none. -/
def Segment.sources (s : Segment) : List Nat :=
  let first := match s.guarded.style with
    | .singleLine => s.start
    | _ => s.start + 1
  List.range' first s.stock.length

/-- The sources of the stock lines from `cursor` on. -/
def stockSourcesFrom (count : Nat) : Nat → List Segment → List Nat
  | cursor, [] => List.range' cursor (count - cursor)
  | cursor, s :: rest =>
    List.range' cursor (s.start - cursor) ++ s.sources ++ stockSourcesFrom count s.stop rest

/-- The live line that each stock line comes from, in a file of `count` lines. -/
def stockSources (count : Nat) (segments : List Segment) : List Nat :=
  stockSourcesFrom count 0 segments

end Regraft
