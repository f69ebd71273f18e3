import NoobKernel.Library.Disk
import NoobKernel.Model.Basic

/-! # `sys_sendfile`

The call between two open files, of which the source has a position. -/

namespace NoobKernel.Sendfile

open Library

/-- What the files do in a round of the loop. The source has `ready` bytes, none at its end or if
the read fails. The destination takes up to `room` bytes, and reports them or an error. -/
structure Round where
  ready : ℕ
  room : ℕ
  error : Option { e : ℤ // e < 0 }

end NoobKernel.Sendfile
