import RunLog.Proofs.AllLines
import RunLog.Proofs.MalformedLines

/-! # Runs that nobody stops

A run over a feed in which nobody asks it to stop goes by what is seen of all lines of the log,
whatever the log holds. -/

namespace RunLog.Product

variable {δ : Type} [Decoder δ] {f : Feed}

/-- The same product, made of the lines that match another pattern. -/
def pipelineOf (pattern : LinePattern) (product : Product) (options : ProductOptions) (feed : Feed)
    (sink : Sink) : Pipeline (Filter (Blocking δ)) :=
  { product.pipeline (δ := δ) options feed sink with source := lines pattern options }

/-- Every line that comes of a log, whoever looks at it. -/
def allLines (δ : Type) [Decoder δ] (options : ProductOptions) (f : Feed) : List BoundedLine :=
  (Lines.start (⟨{ config := options.reader }⟩ : Blocking δ) options.reader.maxLineBytes).all f

/-- A report goes by what it sees of the lines. -/
theorem endingAfter_pipelineOf (options : ProductOptions) (hf : f.Quiet) {product : Product}
    (hproduct : product ≠ .raw) (pattern : LinePattern) (sink : Sink) :
    (product.pipelineOf (δ := δ) pattern options f sink).endingAfter 0 0 =
      (product.course options sink).run
        ((allLines δ options f).map (BoundedLine.seen pattern ⟨options.stopAt⟩)) := by
  have hgives := Lines.gives_all (l := Lines.start (⟨{ config := options.reader }⟩ : Blocking δ)
    options.reader.maxLineBytes) hf
  cases product with
  | raw => exact absurd rfl hproduct
  | _ => exact Pipeline.endingAfter_onLines hgives hf.stopped_eq {} 0 _ _ 0 0

end RunLog.Product
