import GameServer.Db
import GameServer.Base.Transition
import Mathlib.Logic.Function.Basic

set_option autoImplicit false

/- Logger.h and Logger.cpp: the queue of the log file, its two ways of being flushed, and
the records the overloads of L build. -/
namespace GameServer.Log

open Base Base.Sql

/-- QueueMax -/
abbrev queueMax : Nat := 10

/-- `file` is what has been written to Log.txt, `console` to the standard output. -/
structure Logger where
  file : Text
  logQueue : List Text
  console : Text
  deriving DecidableEq

namespace Logger

/-- The constructor opens Log.txt for writing, which empties it. -/
def new : Logger := ⟨[], [], []⟩

/-- The loop that writes the queue to the file, and `LogQueue.clear()`. -/
def flush (s : Logger) : Logger :=
  { s with file := s.logQueue.foldl (fun file msg => file ++ msg) s.file, logQueue := [] }

def pushBack (s : Logger) (log : Text) : Logger := { s with logQueue := s.logQueue ++ [log] }

/-- Logger::WriteLog, with the mutex held. -/
def writeLog (s : Logger) (log : Text) : Logger :=
  if (s.pushBack log).logQueue.length > queueMax then (s.pushBack log).flush else s.pushBack log

/-- Logger::~Logger -/
def destroy (s : Logger) : Logger :=
  if s.logQueue.length ≠ 0 then s.flush else s

/-- The file once everything queued has been written. -/
def contents (s : Logger) : Text := s.file ++ s.logQueue.flatten

theorem file_flush (s : Logger) : s.flush.file = s.contents := by
  rw [flush, contents, List.foldl_append_eq_append]
  simp only [List.map_id']

theorem contents_flush (s : Logger) : s.flush.contents = s.contents := by
  rw [contents, file_flush]
  exact List.append_nil _

theorem contents_writeLog (s : Logger) (log : Text) : (s.writeLog log).contents = s.contents ++ log := by
  have queued : (s.pushBack log).contents = s.contents ++ log := by
    simp only [contents, pushBack, List.flatten_append, List.flatten_singleton, List.append_assoc]
  unfold writeLog
  split
  · rw [contents_flush, queued]
  · exact queued

/-- The queue is flushed as soon as it is longer than QueueMax. -/
theorem logQueue_writeLog (s : Logger) (log : Text) : (s.writeLog log).logQueue.length ≤ queueMax := by
  unfold writeLog
  split
  · exact Nat.zero_le _
  · omega

theorem file_destroy (s : Logger) : s.destroy.file = s.contents := by
  unfold destroy
  split
  · exact s.file_flush
  · rename_i empty
    rw [Decidable.not_not, List.length_eq_zero_iff] at empty
    rw [contents, empty]
    exact (List.append_nil _).symm

theorem logQueue_destroy (s : Logger) : s.destroy.logQueue = [] := by
  unfold destroy
  split
  · rfl
  · rename_i empty
    rwa [Decidable.not_not, List.length_eq_zero_iff] at empty

end Logger

section Threads

variable {Thread : Type} [DecidableEq Thread]

/-- The logger and what each thread has still to pass to WriteLog. -/
structure Logging (Thread : Type) where
  logger : Logger
  todo : Thread → List Text
  destroyed : Bool

/-- A thread takes the mutex for its next call, or the logger is destroyed. -/
inductive Turn (Thread : Type) where
  | writeLog (thread : Thread)
  | destroy

namespace Logging

def start (todo : Thread → List Text) : Logging Thread := ⟨.new, todo, false⟩

def enabled (s : Logging Thread) : Turn Thread → Prop
  | .writeLog thread => s.destroyed = false ∧ s.todo thread ≠ []
  | .destroy => s.destroyed = false

instance (s : Logging Thread) : (turn : Turn Thread) → Decidable (s.enabled turn)
  | .writeLog thread => inferInstanceAs (Decidable (s.destroyed = false ∧ s.todo thread ≠ []))
  | .destroy => inferInstanceAs (Decidable (s.destroyed = false))

/-- The string a turn passes to WriteLog. -/
def passing (s : Logging Thread) : Turn Thread → Option Text
  | .writeLog thread => (s.todo thread).head?
  | .destroy => none

def next (s : Logging Thread) : Turn Thread → Logging Thread
  | .writeLog thread =>
      match s.todo thread with
      | [] => s
      | log :: rest => ⟨s.logger.writeLog log, Function.update s.todo thread rest, s.destroyed⟩
  | .destroy => ⟨s.logger.destroy, s.todo, true⟩

end Logging

/-- The calls of any number of threads, in any order. -/
def logging : System (Logging Thread) (Turn Thread) := ⟨Logging.enabled, Logging.next⟩

instance (s : Logging Thread) (turn : Turn Thread) : Decidable (logging.enabled s turn) :=
  inferInstanceAs (Decidable (s.enabled turn))

/-- File and queue together hold what has been passed, in order; once the logger is
destroyed the file does. -/
structure Kept (s : Logging Thread) (passed : List Text) : Prop where
  whole : s.logger.file ++ s.logger.logQueue.flatten = passed.flatten
  bounded : s.logger.logQueue.length ≤ queueMax
  written : s.destroyed = true → s.logger.file = passed.flatten

theorem Kept.next {s : Logging Thread} {passed : List Text} (kept : Kept s passed) (turn : Turn Thread)
    (may : s.enabled turn) : Kept (s.next turn) (passed ++ (s.passing turn).toList) := by
  have whole : s.logger.contents = passed.flatten := kept.whole
  cases turn with
  | writeLog thread =>
      obtain ⟨log, rest, todo⟩ := List.exists_cons_of_ne_nil may.2
      have moved : s.next (.writeLog thread) =
          ⟨s.logger.writeLog log, Function.update s.todo thread rest, s.destroyed⟩ := by
        simp only [Logging.next, todo]
      have passes : s.passing (.writeLog thread) = some log := by
        simp only [Logging.passing, todo, List.head?_cons]
      rw [moved, passes, Option.toList_some]
      constructor
      · change (s.logger.writeLog log).contents = _
        rw [Logger.contents_writeLog, whole, List.flatten_append, List.flatten_singleton]
      · exact s.logger.logQueue_writeLog log
      · intro destroyed
        rw [may.1] at destroyed
        cases destroyed
  | destroy =>
      have all : s.logger.destroy.file = (passed ++ []).flatten := by
        rw [Logger.file_destroy, whole, List.append_nil]
      have empty := s.logger.logQueue_destroy
      constructor
      · change s.logger.destroy.file ++ s.logger.destroy.logQueue.flatten = _
        rw [empty, all]
        exact List.append_nil _
      · change s.logger.destroy.logQueue.length ≤ _
        rw [empty]
        exact Nat.zero_le _
      · exact fun _ => all

/-- Whatever the threads have to log and in whichever order they take the mutex, nothing
is lost, written twice or reordered, at any point of the run. -/
theorem log_kept (todo : Thread → List Text) (turns : List (Turn Thread))
    (valid : logging.Valid (Logging.start todo) turns) :
    ∀ front, front <+: turns →
      Kept (logging.run (Logging.start todo) front) (logging.collect Logging.passing (Logging.start todo) front) := by
  intro front part
  have begins : Kept (Logging.start todo) [] := by
    constructor
    · rfl
    · exact Nat.zero_le _
    · intro destroyed
      cases destroyed
  have step (s : Logging Thread) (turn : Turn Thread) (passed : List Text) (kept : Kept s passed)
      (may : logging.enabled s turn) : Kept (logging.next s turn) (passed ++ (s.passing turn).toList) :=
    kept.next turn may
  exact logging.invariant_collect step begins (System.Always.of_prefix valid part)

/-- Two threads with six strings each: the queue is flushed with the eleventh, and the
destructor finds the twelfth. -/
def twoThreads : Bool → List Text
  | true => List.replicate 6 "a".toList
  | false => List.replicate 6 "b".toList

def twelveTurns : List (Turn Bool) :=
  [.writeLog true, .writeLog true, .writeLog false, .writeLog true, .writeLog false, .writeLog false, .writeLog true,
    .writeLog false, .writeLog true, .writeLog false, .writeLog true, .writeLog false, .destroy]

theorem log_kept_twelve :
    Kept (logging.run (Logging.start twoThreads) (twelveTurns.take 11))
        (logging.collect Logging.passing (Logging.start twoThreads) (twelveTurns.take 11)) ∧
      (logging.run (Logging.start twoThreads) (twelveTurns.take 11)).logger.file = "aababbababa".toList ∧
      Kept (logging.run (Logging.start twoThreads) twelveTurns)
        (logging.collect Logging.passing (Logging.start twoThreads) twelveTurns) ∧
      (logging.run (Logging.start twoThreads) twelveTurns).logger.file = "aababbababab".toList := by
  have valid : logging.Valid (Logging.start twoThreads) twelveTurns := by decide
  have kept := log_kept twoThreads twelveTurns valid
  exact ⟨kept _ (List.take_prefix 11 _), by decide, kept _ (List.prefix_refl _), by decide⟩

end Threads

section Records

/-- std::ctime: the text of a clock reading, which ends in a newline. -/
def ctime (reading : Text) : Text := reading ++ ['\n']

/-- A call of L. -/
inductive LCall where
  | plain (reading msg : Text)
  | leveled (reading msg : Text) (logLevel : Int32)

/-- The local `log` of L(msg); the last character of `time_str` becomes a blank. -/
def plainRecord (reading msg : Text) : Text :=
  let timeStr := (ctime reading).set ((ctime reading).length - 1) ' '
  "Log L0  ".toList ++ timeStr ++ ": ".toList ++ msg

/-- The local `log` of L(msg, level). -/
def leveledRecord (reading msg : Text) (logLevel : Int32) : Text :=
  "Log L".toList ++ DB.lexicalCast logLevel ++ "  ".toList ++ ctime reading ++ (" : ".toList ++ msg)

/-- A line on the standard output, of what `c_str()` shows of a string. -/
def Logger.print (s : Logger) (line : Text) : Logger :=
  { s with console := s.console ++ line.takeWhile (· ≠ '\x00') ++ ['\n'] }

/-- Both overloads of Logger::L: each builds its record, and WriteLog gets `msg`. -/
def Logger.l (s : Logger) : LCall → Logger
  | .plain reading msg =>
      let log := plainRecord reading msg
      (s.print log).writeLog msg
  | .leveled _ msg _ => (s.print msg).writeLog msg

def LCall.record : LCall → Text
  | .plain reading msg => plainRecord reading msg
  | .leveled reading msg logLevel => leveledRecord reading msg logLevel

def LCall.msg : LCall → Text
  | .plain _ msg => msg
  | .leveled _ msg _ => msg

theorem contents_l (s : Logger) (call : LCall) : (s.l call).contents = s.contents ++ call.msg := by
  cases call with
  | plain reading msg => exact Logger.contents_writeLog _ msg
  | leveled reading msg logLevel => exact Logger.contents_writeLog _ msg

/-- What reaches the file are the messages. -/
theorem file_of_calls (s : Logger) (calls : List LCall) :
    (calls.foldl Logger.l s).destroy.file = s.contents ++ (calls.map LCall.msg).flatten := by
  induction calls generalizing s with
  | nil =>
      rw [List.foldl_nil, Logger.file_destroy]
      exact (List.append_nil _).symm
  | cons call calls ih =>
      rw [List.foldl_cons, ih, contents_l, List.map_cons, List.flatten_cons, List.append_assoc]

/-- A record is level and time stamp, then the message. -/
theorem record_split (call : LCall) : ∃ stamp, stamp ≠ [] ∧ call.record = stamp ++ call.msg := by
  cases call with
  | plain reading msg =>
      have started : "Log L0  ".toList ≠ [] := by decide
      refine ⟨_, ?_, rfl⟩
      apply List.append_ne_nil_of_left_ne_nil
      exact List.append_ne_nil_of_left_ne_nil started _
  | leveled reading msg logLevel =>
      have ended : " : ".toList ≠ [] := by decide
      refine ⟨_, ?_, (List.append_assoc _ " : ".toList msg).symm⟩
      exact List.append_ne_nil_of_right_ne_nil _ ended

theorem msg_shorter (call : LCall) : call.msg.length < call.record.length := by
  obtain ⟨stamp, some, split⟩ := record_split call
  have positive := List.length_pos_iff.mpr some
  rw [split, List.length_append]
  omega

theorem messages_shorter (calls : List LCall) :
    (calls.map LCall.msg).flatten.length ≤ (calls.map LCall.record).flatten.length := by
  induction calls with
  | nil => exact Nat.le_refl _
  | cons call calls ih =>
      have here := msg_shorter call
      simp only [List.map_cons, List.flatten_cons, List.length_append]
      omega

/-- The file holds the records of the calls only if there was no call. -/
theorem file_records_iff (calls : List LCall) :
    (calls.foldl Logger.l .new).destroy.file = (calls.map LCall.record).flatten ↔ calls = [] := by
  rw [file_of_calls]
  constructor
  · intro same
    cases calls with
    | nil => rfl
    | cons call calls =>
        have here := msg_shorter call
        have rest := messages_shorter calls
        have total := congrArg List.length same
        simp only [Logger.contents, Logger.new, List.flatten_nil, List.nil_append, List.map_cons, List.flatten_cons,
          List.length_append] at total
        omega
  · intro none
    rw [none]
    rfl

/-- One message of level 2: neither the level nor the time is in the file. -/
theorem record_lost :
    ([LCall.leveled "Mon".toList "hit".toList 2].foldl Logger.l .new).destroy.file = "hit".toList ∧
    ([LCall.leveled "Mon".toList "hit".toList 2].foldl Logger.l .new).destroy.file ≠
      ([LCall.leveled "Mon".toList "hit".toList 2].map LCall.record).flatten := by
  decide

end Records

end GameServer.Log
