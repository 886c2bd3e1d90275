/-!
# Log records

A record is a message with a level that says how much it matters.
-/

namespace Dcpu16

/-- How much a record matters, the most important level first. -/
inductive Level
  | error | warn | info | debug | trace
  deriving DecidableEq

namespace Level

def name : Level → String
  | .error => "ERROR"
  | .warn => "WARN"
  | .info => "INFO"
  | .debug => "DEBUG"
  | .trace => "TRACE"

/-- The place of a level in the order of importance. -/
def rank : Level → Nat
  | .error => 0
  | .warn => 1
  | .info => 2
  | .debug => 3
  | .trace => 4

/-- Whether records of a level are kept where `threshold` is the least important level that is. -/
def shownAt (threshold level : Level) : Bool := level.rank ≤ threshold.rank

/-- The most important level is always kept. -/
@[simp] theorem shownAt_error (threshold : Level) : threshold.shownAt .error = true :=
  decide_eq_true (Nat.zero_le _)

/-- A higher threshold shows what a lower one does. -/
theorem shownAt_of_le {threshold threshold' level : Level} (h : threshold.rank ≤ threshold'.rank)
    (hlevel : threshold.shownAt level = true) : threshold'.shownAt level = true :=
  decide_eq_true (Nat.le_trans (of_decide_eq_true hlevel) h)

end Level

/-- A message with its level. -/
structure Record where
  level : Level
  message : String
  deriving DecidableEq

/-- The records that are at least as important as a level, in order. -/
def Record.upTo (threshold : Level) (records : List Record) : List Record :=
  records.filter fun r => threshold.shownAt r.level

namespace Record

@[simp] theorem upTo_append (threshold : Level) (records records' : List Record) :
    upTo threshold (records ++ records') = upTo threshold records ++ upTo threshold records' :=
  List.filter_append ..

/-- Keeping fewer levels of what has been kept is the same as keeping these at once. -/
theorem upTo_upTo {threshold threshold' : Level} (h : threshold.rank ≤ threshold'.rank)
    (records : List Record) :
    upTo threshold (upTo threshold' records) = upTo threshold records := by
  rw [upTo, upTo, upTo, List.filter_filter]
  refine List.filter_congr fun r _ => ?_
  cases hr : threshold.shownAt r.level with
  | false => rfl
  | true => rw [Level.shownAt_of_le h hr, Bool.and_true]

end Record

end Dcpu16
