import NoobKernel.Model.Sendfile

/-! # `sys_sendfile` and short writes -/

namespace NoobKernel.Sendfile

open Library

variable {src : Disk UInt8} {env : ℕ → Round} {count fPos total pos : ℕ} {out : List UInt8}

end NoobKernel.Sendfile
