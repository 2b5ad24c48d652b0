import Langsvr.CodecTypes

/-!
# Declarations of the protocol

The generated structures to which the theorems about the codec are applied, in the
order in which they are declared.
-/

namespace Langsvr.Lsp

def position : Structure :=
  .mk none [⟨"line", false, .uinteger⟩, ⟨"character", false, .uinteger⟩] []

def range : Structure :=
  .mk none [⟨"start", false, .reference "Position"⟩, ⟨"end", false, .reference "Position"⟩] []

def textEdit : Structure :=
  .mk none [⟨"range", false, .reference "Range"⟩, ⟨"newText", false, .string⟩] []

def resourceOperation : Structure :=
  .mk none [⟨"kind", false, .string⟩, ⟨"annotationId", true, .string⟩] []

def createFileOptions : Structure :=
  .mk none [⟨"overwrite", true, .boolean⟩, ⟨"ignoreIfExists", true, .boolean⟩] []

def createFile : Structure :=
  .mk (some "create")
    [⟨"uri", false, .string⟩, ⟨"options", true, .reference "CreateFileOptions"⟩]
    [resourceOperation]

def annotatedTextEdit : Structure :=
  .mk none [⟨"annotationId", false, .string⟩] [textEdit]

def workDoneProgressBegin : Structure :=
  .mk (some "begin")
    [⟨"title", false, .string⟩, ⟨"cancellable", true, .boolean⟩, ⟨"message", true, .string⟩,
      ⟨"percentage", true, .uinteger⟩] []

def progressParams : Structure :=
  .mk none [⟨"token", false, .oneOf [.integer, .string]⟩, ⟨"value", false, .lspAny⟩] []

def protocol : Declarations :=
  [⟨"WorkDoneProgressBegin", workDoneProgressBegin⟩, ⟨"AnnotatedTextEdit", annotatedTextEdit⟩,
    ⟨"CreateFile", createFile⟩, ⟨"CreateFileOptions", createFileOptions⟩,
    ⟨"ResourceOperation", resourceOperation⟩, ⟨"TextEdit", textEdit⟩, ⟨"Range", range⟩,
    ⟨"Position", position⟩]

end Langsvr.Lsp
