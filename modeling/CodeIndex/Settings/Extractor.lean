import CodeIndex.Extraction.Extractor
import CodeIndex.Settings.Basic

/-! # Extraction under settings -/

namespace CodeIndex

def Settings.extractor (s : Settings) : Extractor where
  rules := s.language
  style := s.style
  captureText := s.captureText

end CodeIndex
