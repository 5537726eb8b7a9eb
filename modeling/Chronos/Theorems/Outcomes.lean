import Chronos.Worker.Execute
import Chronos.Refinement.Checks

namespace Chronos

variable {registry : String → Option Handler} {frames : String} {job : Job}

end Chronos
