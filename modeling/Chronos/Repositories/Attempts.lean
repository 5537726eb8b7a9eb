import Chronos.Repositories.Jobs

namespace Chronos

namespace JobEntry

-- AttemptRepository.start: one new row of job_attempts.
def startAttempt (workerId : WorkerId) (attemptNumber : Int) (now : Time) (e : JobEntry) :
    JobEntry :=
  { e with attempts := e.attempts ++
      [{ workerId := some workerId
         attemptNumber := attemptNumber
         status := .running
         error := none
         startedAt := now
         finishedAt := none }] }

end JobEntry

namespace JobAttempt

-- The WHERE clause of AttemptRepository.finish, within the attempts of the job.
def inFlight (attemptNumber : Int) (a : JobAttempt) : Bool :=
  a.attemptNumber = attemptNumber ∧ a.status = .running

def close (status : AttemptStatus) (error : Option String) (now : Time) (a : JobAttempt) :
    JobAttempt :=
  { a with status := status, error := error, finishedAt := some now }

end JobAttempt

namespace JobEntry

-- AttemptRepository.finish
def finishAttempt (attemptNumber : Int) (status : AttemptStatus) (error : Option String)
    (now : Time) (e : JobEntry) : JobEntry :=
  { e with attempts := e.attempts.map fun a =>
      if a.inFlight attemptNumber then a.close status error now else a }

-- The row count AttemptRepository.finish returns.
def finishedRows (attemptNumber : Int) (e : JobEntry) : Nat :=
  e.attempts.countP (JobAttempt.inFlight attemptNumber)

end JobEntry

end Chronos
