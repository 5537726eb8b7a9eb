import Chronos.Repositories.Jobs

namespace Chronos

-- What traceback.format_exception makes of an exception: its last line is ended.
structure Traceback where
  text : String
  newline : text.toList.getLast? = some '\n'

-- What the try statement of _execute comes to.
inductive Waited
  | returned (result : Option Json)
  | cancelled
  | timeout
  | raised (traceback : Traceback)

inductive ExecutorCall
  | completeSuccess (result : Option Json)
  | completeFailure (error : String)
  | releaseJob
deriving DecidableEq

def timedOutError (job : Job) : String :=
  "execution timed out after " ++ toString job.timeoutSeconds ++ "s (attempt " ++
    toString job.attemptCount ++ " of " ++ toString job.maxAttempts ++ ")"

-- text[-4000:]
def Traceback.tail (traceback : Traceback) : String :=
  String.ofList (traceback.text.toList.drop (traceback.text.toList.length - 4000))

-- The except clauses and the else branch of _execute.
def Waited.calls (job : Job) : Waited → List ExecutorCall
  | .cancelled => [.releaseJob]
  | .timeout => [.completeFailure (timedOutError job)]
  | .raised traceback => [.completeFailure traceback.tail]
  | .returned result => [.completeSuccess result]

-- The UPDATE that a call makes on the row it finds RUNNING under its worker.
def ExecutorCall.update (workerId : WorkerId) (retry : Bool) (delaySeconds : ℚ) (now : Time) :
    ExecutorCall → GuardedUpdate
  | .completeSuccess result => JobRepository.finishSuccess workerId result now
  | .completeFailure error => JobRepository.finishFailure workerId error retry delaySeconds now
  | .releaseJob => JobRepository.release workerId now

end Chronos
