/-!
# Segmentations

A template is a row of segments: literal text, pieces whose text is already known, and free
pieces. A segmentation of a subject gives each free piece a text such that the segments, put
together from left to right, are the subject. It is listed as a row of the texts of all pieces,
the known ones among them; literal text is left out.

Segmentations are listed by the lengths of their free pieces: the first free piece is as short
as can be first, and with each text of it the rest is segmented in the same way.
-/

namespace StableModels

/-- One segment of a template. -/
inductive Segment where
  /-- Text that stands there and is not listed. -/
  | literal (text : List Char)
  /-- A piece with a known text. -/
  | known (text : List Char)
  /-- A piece of any text. -/
  | free
  deriving DecidableEq, Repr

/-- What follows a text that the subject begins with. -/
def afterStart? : List Char → List Char → Option (List Char)
  | [], rest => some rest
  | _ :: _, [] => none
  | char :: text, first :: rest => if char = first then afterStart? text rest else none

/-- All ways to cut a text in two, the shortest first part first. -/
def cuts : List Char → List (List Char × List Char)
  | [] => [([], [])]
  | char :: rest => ([], char :: rest) :: (cuts rest).map fun cut => (char :: cut.1, cut.2)

/-- The segmentations of a subject. A free piece at the end of the template takes the whole
rest of the subject. -/
def segmentations : List Segment → List Char → List (List (List Char))
  | [], rest => if rest.isEmpty then [[]] else []
  | .literal text :: template, rest =>
    match afterStart? text rest with
    | none => []
    | some after => segmentations template after
  | .known text :: template, rest =>
    match afterStart? text rest with
    | none => []
    | some after => (segmentations template after).map (text :: ·)
  | [.free], rest => [[rest]]
  | .free :: segment :: template, rest =>
    (cuts rest).flatMap fun cut =>
      (segmentations (segment :: template) cut.2).map (cut.1 :: ·)

end StableModels
