import CellForth.Proofs.Abreast

/-!
# Text from a stream

A text that arrives as a stream is cut into chunks, and reads of the stream may be interrupted.
Neither is seen by the words that read it: a chunk is asked for when the one before is used up, and
an interrupted read is tried again. So the machine that reads the stream and the one that reads the
text stay in step, and end alike (`Machine.run_setStream_eq_evaluate`).

The argument is about rows of read events. Two of them read alike if they are the same without their
interruptions, and this holds of what is left behind every read.
-/

namespace CellForth

/-- The deliveries amount to the bytes: they are chunks, none of them empty, and interruptions. -/
inductive Delivers : List Delivery → List UInt8 → Prop
  /-- Nothing is left to be delivered. -/
  | done : Delivers [] []
  /-- Nothing is delivered this time. -/
  | interruption {ds : List Delivery} {bs : List UInt8} :
    Delivers ds bs → Delivers (.interruption :: ds) bs
  /-- Some bytes are delivered. -/
  | chunk (b : UInt8) (bs : List UInt8) {ds : List Delivery} {rest : List UInt8} :
    Delivers ds rest → Delivers (.chunk (b :: bs) :: ds) (b :: bs ++ rest)

/-! ### Reading without interruptions -/

/-- The events but the interruptions. -/
def ReadEvent.calm (events : List ReadEvent) : List ReadEvent :=
  events.filter (· ≠ .interruption)

open ReadEvent (calm)

@[simp] theorem ReadEvent.calm_interruption (events : List ReadEvent) :
    calm (.interruption :: events) = calm events :=
  rfl

@[simp] theorem ReadEvent.calm_byte (b : UInt8) (events : List ReadEvent) :
    calm (.byte b :: events) = .byte b :: calm events :=
  rfl

theorem ReadEvent.calm_bytes (bs : List UInt8) : calm (bs.map .byte) = bs.map .byte := by
  induction bs with
  | nil => rfl
  | cons b bs ih => rw [List.map_cons, calm_byte, ih]

theorem Delivers.calm_events {ds : List Delivery} {bs : List UInt8} (h : Delivers ds bs) :
    calm (ds.flatMap Delivery.events) = bs.map .byte := by
  induction h with
  | done => rfl
  | interruption _ ih => exact ih
  | chunk b bs _ ih =>
    rw [List.flatMap_cons, calm, List.filter_append, List.map_append]
    exact congr (congrArg _ (ReadEvent.calm_bytes (b :: bs))) ih

/-- The scan with no interruptions left. -/
def Scan.calm (scan : Scan) : Scan :=
  { scan with rest := ReadEvent.calm scan.rest }

/-- A token is scanned as if there were no interruptions. -/
theorem Scan.word_calm (seen : List UInt8) (n : Nat) (events : List ReadEvent) :
    word seen n (ReadEvent.calm events) = (word seen n events).calm := by
  fun_induction word seen n events with
  | case1 => rfl
  | case2 => rfl
  | case3 => rfl
  | case4 seen n rest ih => exact ih
  | case5 seen b rest hspace ih =>
    rw [ReadEvent.calm_byte, word, if_pos hspace, if_pos rfl, ih]
  | case6 seen n b rest hspace hn =>
    rw [ReadEvent.calm_byte, word, if_pos hspace, if_neg hn, Scan.calm]
  | case7 seen n b rest hspace hn ih =>
    rw [ReadEvent.calm_byte, word, if_neg hspace, if_pos hn, ih]
  | case8 seen n b rest hspace hn =>
    rw [ReadEvent.calm_byte, word, if_neg hspace, if_neg hn, Scan.calm]

/-- So is what precedes a delimiter. -/
theorem Scan.upTo_calm (delimiter : UInt8) (seen : List UInt8) (events : List ReadEvent) :
    upTo delimiter seen (ReadEvent.calm events) = (upTo delimiter seen events).calm := by
  fun_induction upTo delimiter seen events with
  | case1 => rfl
  | case2 => rfl
  | case3 => rfl
  | case4 seen rest ih => exact ih
  | case5 seen rest => rw [ReadEvent.calm_byte, upTo, if_pos rfl, Scan.calm]
  | case6 seen b rest hb ih => rw [ReadEvent.calm_byte, upTo, if_neg hb, ih]

/-- And so is a byte read. -/
theorem Source.readEvents_calm (events : List ReadEvent) :
    readEvents (calm events) = ((readEvents events).1, calm (readEvents events).2) := by
  fun_induction readEvents events with
  | case1 => rfl
  | case2 => rfl
  | case3 => rfl
  | case4 => rfl
  | case5 rest ih => exact ih

/-- The sources are the same without their interruptions. -/
def Source.SameCalm (x y : Source) : Prop :=
  calm y.events = calm x.events

theorem Scan.Agree.of_calm {a b : Scan} (h : b.calm = a.calm) : Agree Source.SameCalm a b where
  text := (congrArg Scan.text h :)
  fault := (congrArg Scan.fault h :)
  rest := congrArg Scan.rest h

/-- Interruptions make no difference to reading. -/
theorem Source.SameReading.sameCalm : SameReading SameCalm where
  word {x y} h := .of_calm (by rw [← Scan.word_calm, ← Scan.word_calm, h])
  upTo delimiter {x y} h := .of_calm (by rw [← Scan.upTo_calm, ← Scan.upTo_calm, h])
  byte {x y} h := by
    have hread := readEvents_calm y.events
    rw [h, readEvents_calm, Prod.mk.injEq] at hread
    exact ⟨hread.1.symm, hread.2.symm⟩

/-! ### Running a stream -/

namespace Machine

/-- A stream that delivers a text is run as the text is evaluated: within any number of steps, and
for words that read the input as well, there is the same result or none, and the machines agree on
all but what is left of the input and the journal. -/
theorem run_setStream_eq_evaluate (m : Machine) {text : String} {ds : List Delivery}
    (h : Delivers ds (Text.bytes text)) (steps : Nat) :
    ((m.setStream (.ofDeliveries ds)).run steps).map (mapState core) =
      (m.evaluate steps text).map (mapState core) := by
  have hcalm : Source.SameCalm (.ofText text) (.ofDeliveries ds) :=
    h.calm_events.trans (ReadEvent.calm_bytes _).symm
  have hst : Abreast Source.SameCalm Eq Eq (m.setText text) (m.setStream (.ofDeliveries ds)) :=
    ⟨rfl, hcalm, rfl, by simp [setText, setStream, report]⟩
  cases hpoison : m.poison? with
  | some f =>
    have hpoison' : (m.setStream (.ofDeliveries ds)).poison? = some f := hpoison
    simp only [run, evaluate, hpoison, hpoison']
    rfl
  | none =>
    have hpoison' : (m.setStream (.ofDeliveries ds)).poison? = none := hpoison
    rw [evaluate_eq_of_poison?_eq_none hpoison, run, hpoison', Option.map_map, Option.map_map]
    exact hst.interpret_core_eq .sameCalm steps

/-- A word that reads a byte, from a stream whose chunks end within the word, right before the byte,
and behind it. -/
theorem run_setStream_eq_evaluate_key :
    ∃ (m : Machine) (ds : List Delivery), Delivers ds (Text.bytes "key A 7") ∧
      ((m.setStream (.ofDeliveries ds)).run 9).map (mapState core) =
        (m.evaluate 9 "key A 7").map (mapState core) ∧
      (m.evaluate 9 "key A 7").map (fun r => (endState r).dataStack.items) = some [7, 65] := by
  let m := knowing [⟨"key", .key, false⟩] .off
  have hbytes : Text.bytes "key A 7" = [107, 101, 121, 32, 65, 32, 55] := by decide +kernel
  have hds : Delivers [.interruption, .chunk [107, 101], .chunk [121, 32], .interruption,
      .interruption, .chunk [65], .chunk [32, 55], .interruption] (Text.bytes "key A 7") := by
    rw [hbytes]
    exact .interruption (.chunk 107 [101] (.chunk 121 [32] (.interruption (.interruption
      (.chunk 65 [] (.chunk 32 [55] (.interruption .done)))))))
  exact ⟨m, _, hds, run_setStream_eq_evaluate m hds 9, by decide +kernel⟩

end Machine

end CellForth
